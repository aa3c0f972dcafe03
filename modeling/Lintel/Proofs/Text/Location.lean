import Lintel.Proofs.Edit.Simultaneous
import Lintel.Proofs.Text.Ascii
import Lintel.Proofs.Text.Split
import Lintel.Text.Location
import Mathlib.Order.Bounds.Defs

/-!
# Offsets and locations

A location is found from an offset by looking at octets: line feeds are counted, and what lies
between the last of them and the offset is read as characters, without a character that the offset
cuts off. An offset is found from a location by looking at characters: the text is split into
lines, and the first characters of one of them are written out. This module says that the two ways
agree (`locate_offsetOf_inverse`), and that locations are in the order of their offsets
(`locate_le`, `locate_before`).

Both ways are explained by a reader who has passed the characters `ds` of a text.
`Location.after ds` is where the reader stands. `locate_encode` says that this is the location of
an offset if `ds` are the characters that end there or before it, `Utf8.before`; and
`offsetFrom_after` says that the offset of the location is the number of octets of `ds`.

The one fact about UTF-8 that all of this needs is that a character which is cut off is read as
nothing at all (`Utf8.decodeSkipping_take_encodeChar`): what is left of it is no character, because
no character's octets begin with those of another one, and its other octets are tail octets, with
which no character starts.
-/

namespace Lintel

namespace Utf8

/-! ### Texts that are cut off -/

theorem decodeSkipping_append (cs : List Char) (bs : Bytes) :
    decodeSkipping (encode cs ++ bs) = cs ++ decodeSkipping bs := by
  induction cs with
  | nil => rfl
  | cons c cs ih =>
    rw [encode_cons, List.append_assoc, decodeSkipping, pieces_encodeChar, List.filterMap_cons]
    simp only [List.cons_append]
    rw [← ih, decodeSkipping]

/-- The octets of a character behind its first one are tail octets. -/
theorem isTail_of_mem_tail {c : Char} {b : UInt8} (h : b ∈ (String.utf8EncodeChar c).tail) :
    isTail b = true := by
  -- every octet behind the first one has this form
  have htail : ∀ n, isTail (UInt8.ofNat (n % 64 + 0x80)) = true := fun n =>
    isTail_octet (Nat.mod_lt n (by decide))
  unfold String.utf8EncodeChar at h
  simp only at h
  split at h
  · cases h
  · split at h
    · simp only [List.tail_cons, List.mem_cons, List.not_mem_nil, or_false] at h
      rw [h]
      exact htail _
    · split at h
      · simp only [List.tail_cons, List.mem_cons, List.not_mem_nil, or_false] at h
        rcases h with rfl | rfl <;> exact htail _
      · simp only [List.tail_cons, List.mem_cons, List.not_mem_nil, or_false] at h
        rcases h with rfl | rfl | rfl <;> exact htail _

/-- No character starts with a tail octet. -/
theorem decodeSkipping_of_isTail {bs : Bytes} (h : ∀ b ∈ bs, isTail b = true) :
    decodeSkipping bs = [] := by
  induction bs with
  | nil => rfl
  | cons b bs ih =>
    have hb := isTail_iff.mp (h b List.mem_cons_self)
    -- below the least first octet of a longer character
    have hnext : next b bs = .broken 1 .badStart := by
      simp only [next]
      rw [if_neg (by omega), if_pos (by omega)]
    have hrest := ih fun c hc => h c (List.mem_cons_of_mem _ hc)
    rw [decodeSkipping] at hrest
    rw [decodeSkipping, pieces_cons, hnext, List.filterMap_cons]
    exact hrest

/-- **A character that is cut off is not read**, nor is anything else in its place. -/
theorem decodeSkipping_take_encodeChar {c : Char} {n : Nat}
    (hn : n < (String.utf8EncodeChar c).length) :
    decodeSkipping ((String.utf8EncodeChar c).take n) = [] := by
  obtain ⟨b, tl, hc⟩ := List.exists_cons_of_ne_nil (String.utf8EncodeChar_ne_nil (c := c))
  have htl : ∀ x ∈ tl, isTail x = true := fun x hx =>
    isTail_of_mem_tail (c := c) (by rwa [hc, List.tail_cons])
  cases n with
  | zero => rfl
  | succ n =>
    rw [hc, List.take_succ_cons, decodeSkipping, pieces_cons, List.filterMap_cons]
    -- What remains are octets from inside a character, and none of them begins one.
    have hrest : decodeSkipping ((tl.take n).drop ((next b (tl.take n)).width - 1)) = [] :=
      decodeSkipping_of_isTail fun x hx => htl x (List.mem_of_mem_take (List.mem_of_mem_drop hx))
    cases hp : next b (tl.take n) with
    | broken w why =>
      rw [hp] at hrest
      exact hrest
    | char d w =>
      -- the character read would be the whole of `c`
      exfalso
      have hd := (encodeChar_of_next hp).2
      have hwhole : encode [c]
          = encode [d] ++ ((tl.take n).drop (w - 1) ++ tl.drop n) := by
        rw [encode_cons, encode_nil, encode_cons, encode_nil, List.append_nil, List.append_nil,
          ← List.append_assoc, ← hd, List.cons_append, List.take_append_drop, hc]
      obtain ⟨es, hes, hnil⟩ := exists_append_of_encode_eq hwhole
      rw [List.singleton_append, List.cons.injEq] at hes
      obtain ⟨rfl, rfl⟩ := hes
      have hnone := (List.append_eq_nil_iff.mp (hnil.symm.trans encode_nil)).2
      rw [List.drop_eq_nil_iff] at hnone
      rw [hc, List.length_cons] at hn
      omega

/-- The characters that end at an offset or before it. -/
def before (bs : Bytes) (n : Nat) : List Char := decodeSkipping (bs.take n)

theorem encodeChar_newline : String.utf8EncodeChar '\n' = [newline] := by decide

theorem newline_not_mem_encodeChar {c : Char} (h : c ≠ '\n') :
    newline ∉ String.utf8EncodeChar c := by
  intro hmem
  rcases encodeChar_cases c with ⟨b, -, rfl, hone⟩ | hhigh
  · rw [hone, List.mem_singleton] at hmem
    subst hmem
    exact h (by decide)
  · exact absurd (hhigh _ hmem) (by decide)

theorem newline_not_mem_encode {cs : List Char} (h : '\n' ∉ cs) : newline ∉ encode cs := by
  intro hmem
  obtain ⟨c, hc, hbc⟩ := List.mem_flatMap.mp hmem
  exact newline_not_mem_encodeChar (ne_of_mem_of_not_mem hc h) hbc

/-- **The start of a text is made of characters and of a broken rest**, and the rest holds no line
feed. -/
theorem exists_take_encode (cs : List Char) (n : Nat) :
    ∃ tl, (encode cs).take n = encode (before (encode cs) n) ++ tl ∧ newline ∉ tl ∧
      before (encode cs) n <+: cs := by
  induction cs generalizing n with
  | nil =>
    refine ⟨[], ?_, List.not_mem_nil, ?_⟩ <;> simp [before, decodeSkipping, pieces, piecesAfter]
  | cons c cs ih =>
    -- A cut behind the first character leaves it whole, a cut inside breaks it and ends there.
    by_cases hn : (String.utf8EncodeChar c).length ≤ n
    · obtain ⟨tl, htake, htl, hprefix⟩ := ih (n - (String.utf8EncodeChar c).length)
      have hcut : (encode (c :: cs)).take n = String.utf8EncodeChar c
          ++ (encode cs).take (n - (String.utf8EncodeChar c).length) := by
        rw [encode_cons, List.take_append, List.take_of_length_le hn]
      have hbefore : before (encode (c :: cs)) n
          = c :: before (encode cs) (n - (String.utf8EncodeChar c).length) := by
        rw [before, hcut, ← List.append_nil (String.utf8EncodeChar c), ← encode_nil, ← encode_cons,
          decodeSkipping_append]
        rfl
      refine ⟨tl, ?_, htl, ?_⟩
      · rw [hbefore, hcut, htake, encode_cons, List.append_assoc]
      · rw [hbefore]
        exact (List.prefix_cons_inj c).mpr hprefix
    · rw [Nat.not_le] at hn
      have hcut : (encode (c :: cs)).take n = (String.utf8EncodeChar c).take n := by
        rw [encode_cons, List.take_append_of_le_length (Nat.le_of_lt hn)]
      have hbefore : before (encode (c :: cs)) n = [] := by
        rw [before, hcut, decodeSkipping_take_encodeChar hn]
      refine ⟨(String.utf8EncodeChar c).take n, by rw [hbefore, hcut]; rfl, ?_, ?_⟩
      · intro hmem
        -- A line feed is one octet and cannot be cut.
        by_cases hc : c = '\n'
        · rw [hc, encodeChar_newline, List.length_singleton, Nat.lt_one_iff] at hn
          rw [hn] at hmem
          cases hmem
        · exact newline_not_mem_encodeChar hc (List.mem_of_mem_take hmem)
      · rw [hbefore]
        exact List.nil_prefix

theorem prefix_encode {cs ds : List Char} (h : cs <+: ds) : encode cs <+: encode ds := by
  obtain ⟨es, rfl⟩ := h
  exact ⟨encode es, (encode_append cs es).symm⟩

theorem count_newline_encode (cs : List Char) : (encode cs).count newline = cs.count '\n' := by
  induction cs with
  | nil => rfl
  | cons c cs ih =>
    rw [encode_cons, List.count_append, ih]
    -- a line feed is one octet, and no other character has an octet of its value
    by_cases hc : c = '\n'
    · rw [hc, encodeChar_newline, List.count_cons_self, List.count_cons_self, List.count_nil]
      omega
    · rw [List.count_eq_zero_of_not_mem (newline_not_mem_encodeChar hc), List.count_cons_of_ne hc,
        Nat.zero_add]

theorem afterLast_newline_encode (cs : List Char) :
    afterLast newline (encode cs) = encode (afterLast '\n' cs) := by
  -- from the end, where the last line feed is met first
  induction cs using List.reverseRecOn with
  | nil => rfl
  | append_singleton cs c ih =>
    rw [encode_append, encode_cons, encode_nil, List.append_nil]
    by_cases hc : c = '\n'
    · rw [hc, encodeChar_newline, afterLast_concat_self, afterLast_concat_self, encode_nil]
    · have hsep : '\n' ∉ [c] := fun hmem => hc (List.mem_singleton.mp hmem).symm
      rw [afterLast_append_of_not_mem _ (newline_not_mem_encodeChar hc), ih,
        afterLast_append_of_not_mem _ hsep, encode_append, encode_cons, encode_nil,
        List.append_nil]

end Utf8

/-! ### The starts of the lines -/

theorem lt_of_mem_startsAfter {offset k : Nat} {bs : Bytes} (h : k ∈ startsAfter offset bs) :
    offset < k := by
  induction bs generalizing offset with
  | nil => cases h
  | cons b bs ih =>
    rw [startsAfter] at h
    split at h
    · rcases List.mem_cons.mp h with rfl | h
      · omega
      · have hlt := ih h
        omega
    · have hlt := ih h
      omega

theorem length_startsAfter (offset : Nat) (bs : Bytes) :
    (startsAfter offset bs).length = bs.count newline := by
  induction bs generalizing offset with
  | nil => rfl
  | cons b bs ih =>
    rw [startsAfter]
    -- Each line feed opens one line.
    by_cases hb : b = newline
    · rw [if_pos hb, hb, List.length_cons, ih, List.count_cons_self]
    · rw [if_neg hb, ih, List.count_cons_of_ne hb]

/-- The lines that start after the first octet are counted by the line feeds passed. -/
theorem countP_startsAfter (offset n : Nat) (bs : Bytes) :
    (startsAfter offset bs).countP (· ≤ offset + n) = (bs.take n).count newline := by
  induction bs generalizing offset n with
  | nil => simp [startsAfter]
  | cons b bs ih =>
    cases n with
    | zero =>
      -- Every line starts behind a line feed, hence behind `offset`.
      rw [List.take_zero, List.count_nil, List.countP_eq_zero]
      intro k hk
      have hlt := lt_of_mem_startsAfter hk
      simp only [decide_eq_true_eq]
      omega
    | succ n =>
      have hrest := ih (offset + 1) n
      rw [show offset + 1 + n = offset + (n + 1) by omega] at hrest
      rw [startsAfter, List.take_succ_cons]
      by_cases hb : b = newline
      · rw [if_pos hb, List.countP_cons_of_pos (by simp), hrest, hb, List.count_cons_self]
      · rw [if_neg hb, hrest, List.count_cons_of_ne hb]

/-- The lines that start at an offset or before it. -/
theorem countP_lineStarts (bs : Bytes) (n : Nat) :
    (lineStarts bs).countP (· ≤ n) = (bs.take n).count newline + 1 := by
  have hlater := countP_startsAfter 0 n bs
  rw [Nat.zero_add] at hlater
  rw [lineStarts, List.countP_cons_of_pos (by simp), hlater]

/-- **The line of a location** is told by the line feeds in front of the offset. -/
theorem locate_line (bs : Bytes) (offset : Int) :
    (locate bs offset).line
      = ((bs.take (clampOffset bs.length offset)).count newline : Int) + 1 := by
  simp only [locate, locateFrom, countP_lineStarts]
  omega

/-- **The line at an offset starts where the octets begin that follow the last line feed.** The
induction is on the octets, with the offset at which they begin in the place of zero. -/
theorem getD_startsAfter (offset : Nat) (xs ys : Bytes) :
    (offset :: startsAfter offset (xs ++ ys)).getD (xs.count newline) 0
        + (afterLast newline xs).length = offset + xs.length := by
  induction xs generalizing offset with
  | nil => rfl
  | cons b xs ih =>
    have hrest := ih (offset + 1)
    rw [List.cons_append, startsAfter, List.length_cons]
    by_cases hb : b = newline
    · -- the first line is passed, and the others are counted from the next one
      rw [if_pos hb, hb, afterLast_cons_self, List.count_cons_self, List.getD_cons_succ, hrest]
      omega
    · rw [if_neg hb, List.count_cons_of_ne hb]
      by_cases h : newline ∈ xs
      · -- the first line lies behind either way
        obtain ⟨k, hk⟩ := Nat.exists_eq_succ_of_ne_zero (List.count_pos_iff.mpr h).ne'
        rw [hk, Nat.succ_eq_add_one, List.getD_cons_succ] at hrest ⊢
        have hlast : afterLast newline (b :: xs) = afterLast newline xs :=
          afterLast_append_of_mem [b] h
        rw [hlast, hrest]
        omega
      · have hnot : newline ∉ b :: xs := by
          rw [List.mem_cons, not_or]
          exact ⟨Ne.symm hb, h⟩
        rw [List.count_eq_zero_of_not_mem h, afterLast_of_not_mem hnot, List.getD_cons_zero,
          List.length_cons]

/-! ### Locations -/

namespace Location

/-- The location of a reader that has passed some characters. -/
def after (ds : List Char) : Location :=
  ⟨ds.count '\n' + 1, (afterLast '\n' ds).length + 1⟩

end Location

theorem clampOffset_le (size : Nat) (offset : Int) : clampOffset size offset ≤ size :=
  Nat.min_le_right _ _

/-- **A location tells the characters that end at the offset or before it.** -/
theorem locate_encode (cs : List Char) (offset : Int) :
    locate (Utf8.encode cs) offset = .after
      (Utf8.before (Utf8.encode cs) (clampOffset (Utf8.encode cs).length offset)) := by
  have hn := clampOffset_le (Utf8.encode cs).length offset
  obtain ⟨tl, htake, htl, -⟩ :=
    Utf8.exists_take_encode cs (clampOffset (Utf8.encode cs).length offset)
  rw [locate, locateFrom]
  generalize clampOffset (Utf8.encode cs).length offset = n at hn htake ⊢
  have hdecode : Utf8.decodeSkipping ((Utf8.encode cs).take n) = Utf8.before (Utf8.encode cs) n :=
    rfl
  generalize Utf8.before (Utf8.encode cs) n = ds at htake hdecode ⊢
  -- what is broken at the end of the octets does not count
  have hnone : Utf8.decodeSkipping tl = [] := by
    rw [htake, Utf8.decodeSkipping_append] at hdecode
    exact List.append_right_eq_self.mp hdecode
  have hcount : ((Utf8.encode cs).take n).count newline = ds.count '\n' := by
    rw [htake, List.count_append, List.count_eq_zero_of_not_mem htl, Utf8.count_newline_encode]
    rfl
  have hlast : afterLast newline ((Utf8.encode cs).take n)
      = Utf8.encode (afterLast '\n' ds) ++ tl := by
    rw [htake, afterLast_append_of_not_mem _ htl, Utf8.afterLast_newline_encode]
  have hline : (lineStarts (Utf8.encode cs)).countP (· ≤ n) = ds.count '\n' + 1 := by
    rw [countP_lineStarts, hcount]
  -- The last line begins where the octets behind the last line feed do.
  have hstart : (lineStarts (Utf8.encode cs)).getD (ds.count '\n') 0
      + (Utf8.encode (afterLast '\n' ds) ++ tl).length = n := by
    have hget := getD_startsAfter 0 ((Utf8.encode cs).take n) ((Utf8.encode cs).drop n)
    rw [List.take_append_drop, hcount, hlast, List.length_take, Nat.min_eq_left hn,
      Nat.zero_add] at hget
    exact hget
  have hpiece : ((Utf8.encode cs).drop ((lineStarts (Utf8.encode cs)).getD (ds.count '\n') 0)).take
      (n - (lineStarts (Utf8.encode cs)).getD (ds.count '\n') 0)
        = Utf8.encode (afterLast '\n' ds) ++ tl := by
    rw [← List.drop_take]
    have hsuffix := afterLast_suffix newline ((Utf8.encode cs).take n)
    rw [List.suffix_iff_eq_drop, hlast, List.length_take, Nat.min_eq_left hn] at hsuffix
    rw [hsuffix]
    congr 1
    omega
  simp only [hline, Nat.add_sub_cancel, hpiece, Utf8.decodeSkipping_append, hnone, List.append_nil]
  rfl

/-! ### Offsets -/

theorem clampOffset_natCast {size n : Nat} (h : n ≤ size) : clampOffset size (n : Int) = n := by
  rw [clampOffset, Int.toNat_natCast, Nat.min_eq_left h]

theorem Boundary.of_encode (ds es : List Char) :
    Boundary (Utf8.encode (ds ++ es)) (Utf8.encode ds).length := by
  rw [Utf8.encode_append]
  refine ⟨by rw [List.length_append]; omega, ds, ?_⟩
  rw [List.take_left]

theorem Utf8.before_of_encode (ds es : List Char) :
    Utf8.before (Utf8.encode (ds ++ es)) (Utf8.encode ds).length = ds := by
  rw [before, encode_append, List.take_left, decodeSkipping_encode]

theorem locate_of_encode (ds es : List Char) :
    locate (Utf8.encode (ds ++ es)) ((Utf8.encode ds).length : Int) = .after ds := by
  rw [locate_encode, clampOffset_natCast (Boundary.of_encode ds es).1, Utf8.before_of_encode]

theorem length_lineStarts_encode (cs : List Char) :
    (lineStarts (Utf8.encode cs)).length = (splitLines cs).length := by
  rw [lineStarts, List.length_cons, length_startsAfter, Utf8.count_newline_encode, splitLines,
    length_splitOnChar]

/-- **The offset of a place in a line.** A line that is found behind `ds` starts where `ds` ends,
and the place is behind as many characters of the line as there are. -/
theorem offsetFrom_of_line {ds es : List Char} (hds : afterLast '\n' ds = []) (column : Int) :
    offsetFrom (String.ofList (ds ++ es)) (Utf8.encode (ds ++ es))
        (lineStarts (Utf8.encode (ds ++ es))) (ds.count '\n' + 1) column
      = (Utf8.encode (ds ++ (beforeFirst '\n' es).take (column - 1).toNat)).length := by
  -- The text of the line and where it starts, each looked up by the number of line feeds before.
  have hline : (splitLines (ds ++ es)).getD (ds.count '\n') [] = beforeFirst '\n' es := by
    rw [List.getD_eq_getElem?_getD, splitLines, getElem?_splitOnChar_append, hds]
    rfl
  have hstart : (lineStarts (Utf8.encode (ds ++ es))).getD (ds.count '\n') 0
      = (Utf8.encode ds).length := by
    have hget := getD_startsAfter 0 (Utf8.encode ds) (Utf8.encode es)
    rw [Utf8.count_newline_encode, Utf8.afterLast_newline_encode, hds, Nat.zero_add] at hget
    rw [Utf8.encode_append]
    exact hget
  have hcount : ds.count '\n' < (splitLines (ds ++ es)).length := by
    rw [splitLines, length_splitOnChar, List.count_append]
    omega
  have htoNat : ((ds.count '\n' : Int) + 1).toNat = ds.count '\n' + 1 := by omega
  unfold offsetFrom
  rw [if_neg (by omega), htoNat, length_lineStarts_encode, if_neg (by omega)]
  simp only [Nat.add_sub_cancel, String.toList_ofList]
  rw [hline, hstart, Utf8.encode_append, List.length_append]

theorem exists_line {cs : List Char} {i : Nat} (hi : i < (splitLines cs).length) :
    ∃ ds es, cs = ds ++ es ∧ ds.count '\n' = i ∧ afterLast '\n' ds = [] := by
  rw [splitLines, length_splitOnChar] at hi
  -- A line feed is passed with one line less to go, any other character with as many; the
  -- characters passed end with a line feed once one has been passed.
  induction cs generalizing i with
  | nil => exact ⟨[], [], rfl, by rw [List.count_nil] at hi ⊢; omega, rfl⟩
  | cons c cs ih =>
    cases i with
    | zero => exact ⟨[], c :: cs, rfl, rfl, rfl⟩
    | succ i =>
      by_cases hc : c = '\n'
      · rw [hc, List.count_cons_self] at hi
        obtain ⟨ds, es, rfl, hcount, hds⟩ := ih (i := i) (by omega)
        refine ⟨c :: ds, es, rfl, by rw [hc, List.count_cons_self, hcount], ?_⟩
        rw [hc, afterLast_cons_self, hds]
      · rw [List.count_cons_of_ne hc] at hi
        obtain ⟨ds, es, rfl, hcount, hds⟩ := ih hi
        have hmem : '\n' ∈ ds := List.count_pos_iff.mp (by omega)
        refine ⟨c :: ds, es, rfl, by rw [List.count_cons_of_ne hc, hcount], ?_⟩
        rw [← hds]
        exact afterLast_append_of_mem [c] hmem

theorem offsetFrom_after (ds es : List Char) :
    offsetFrom (String.ofList (ds ++ es)) (Utf8.encode (ds ++ es))
        (lineStarts (Utf8.encode (ds ++ es))) (Location.after ds).line (Location.after ds).column
      = (Utf8.encode ds).length := by
  -- the characters are full lines and the beginning of one more
  obtain ⟨xs, hds, hxs⟩ := exists_append_afterLast '\n' ds
  have hsep := not_mem_afterLast '\n' ds
  rw [Location.after]
  generalize afterLast '\n' ds = ys at hds hsep ⊢
  subst hds
  have hcount : (xs ++ ys).count '\n' = xs.count '\n' := by
    rw [List.count_append, List.count_eq_zero_of_not_mem hsep, Nat.add_zero]
  have hcolumn : ((ys.length : Int) + 1 - 1).toNat = ys.length := by omega
  rw [hcount, List.append_assoc, offsetFrom_of_line hxs, beforeFirst_append_of_not_mem es hsep,
    hcolumn, List.take_left]

/-- The characters that end at an offset or before it end at a boundary, and at the last one that
is not behind the offset. -/
theorem Utf8.isGreatest_before (cs : List Char) (n : Nat) :
    IsGreatest {k : Nat | Boundary (encode cs) k ∧ k ≤ n} (encode (before (encode cs) n)).length := by
  obtain ⟨tl, htake, -, es, hes⟩ := exists_take_encode cs n
  constructor
  · refine ⟨?_, ?_⟩
    · have hb := Boundary.of_encode (before (encode cs) n) es
      rwa [hes] at hb
    · have hlength := congrArg List.length htake
      rw [List.length_append, List.length_take] at hlength
      omega
  · rintro k ⟨⟨hk, fs, hfs⟩, hkn⟩
    -- the characters up to an earlier boundary are among those up to the offset
    have hcut : (encode cs).take n = encode fs ++ ((encode cs).take n).drop k := by
      have hparts := List.take_append_drop k ((encode cs).take n)
      rw [List.take_take, Nat.min_eq_left hkn, ← hfs] at hparts
      exact hparts.symm
    have hprefix : fs <+: before (encode cs) n := by
      rw [before, hcut, decodeSkipping_append]
      exact List.prefix_append _ _
    have hle := (prefix_encode hprefix).length_le
    rw [hfs, List.length_take, Nat.min_eq_left hk] at hle
    exact hle

/-- **From an offset to its location and back** leads to the last boundary that is not behind the
offset. -/
theorem isGreatest_offsetOf_locate (text : String) (offset : Int) :
    IsGreatest {k : Nat | Boundary (Utf8.ofString text) k ∧
        (k : Int) ≤ min (max offset 0) (Utf8.ofString text).length}
      (offsetOf text (locate (Utf8.ofString text) offset).line
        (locate (Utf8.ofString text) offset).column) := by
  obtain ⟨cs, rfl⟩ : ∃ cs, text = String.ofList cs := ⟨text.toList, String.ofList_toList.symm⟩
  have hgreatest := Utf8.isGreatest_before cs (clampOffset (Utf8.encode cs).length offset)
  obtain ⟨-, -, -, es, hes⟩ :=
    Utf8.exists_take_encode cs (clampOffset (Utf8.encode cs).length offset)
  have hset : {k : Nat | Boundary (Utf8.encode cs) k ∧
      (k : Int) ≤ min (max offset 0) (Utf8.encode cs).length}
      = {k : Nat | Boundary (Utf8.encode cs) k ∧ k ≤ clampOffset (Utf8.encode cs).length offset} := by
    ext k
    simp only [Set.mem_ofPred_eq, clampOffset]
    refine and_congr_right fun _ => ?_
    omega
  -- The location says how many characters lie before the offset; going back gives their octets.
  rw [offsetOf, Utf8.ofString_ofList, hset, locate_encode]
  generalize Utf8.before (Utf8.encode cs) (clampOffset (Utf8.encode cs).length offset) = ds
    at hgreatest hes ⊢
  have hback := offsetFrom_after ds es
  rw [hes] at hback
  rwa [hback]

/-- **From a line and a column to their offset and back** leads to the same line and to the column,
or to the nearest one the line has. -/
theorem locate_offsetOf (text : String) {line : Int} (column : Int) (hline : 1 ≤ line)
    (hlines : line ≤ (linesOf text).length) :
    ∃ l, (linesOf text)[(line - 1).toNat]? = some l ∧
      locate (Utf8.ofString text) (offsetOf text line column)
        = ⟨line, min (max column 1) (l.length + 1)⟩ := by
  obtain ⟨cs, rfl⟩ : ∃ cs, text = String.ofList cs := ⟨text.toList, String.ofList_toList.symm⟩
  obtain ⟨i, rfl⟩ : ∃ i : Nat, line = i + 1 := ⟨(line - 1).toNat, by omega⟩
  rw [linesOf, String.toList_ofList, List.length_map] at hlines
  have hcount : i < (splitLines cs).length := by omega
  obtain ⟨ds, es, rfl, rfl, hds⟩ := exists_line hcount
  have hi : ((ds.count '\n' : Int) + 1 - 1).toNat = ds.count '\n' := by omega
  refine ⟨String.ofList (beforeFirst '\n' es), ?_, ?_⟩
  · rw [hi, linesOf, String.toList_ofList, List.getElem?_map, splitLines,
      getElem?_splitOnChar_append, hds]
    rfl
  · have hsep := not_mem_beforeFirst '\n' es
    obtain ⟨rest, hes, -⟩ := exists_beforeFirst_append '\n' es
    rw [offsetOf, Utf8.ofString_ofList, offsetFrom_of_line hds, String.length_ofList]
    -- Only that the line holds no line feed is used of it from here on.
    generalize beforeFirst '\n' es = chars at hsep hes ⊢
    -- The offset is that of the text before the line and of as many of its characters as there are.
    have hcut : ds ++ es
        = (ds ++ chars.take (column - 1).toNat) ++ (chars.drop (column - 1).toNat ++ rest) := by
      rw [hes, List.append_assoc, ← List.append_assoc (chars.take _), List.take_append_drop]
    have hsep' : '\n' ∉ chars.take (column - 1).toNat := fun h => hsep (List.mem_of_mem_take h)
    rw [hcut, locate_of_encode, Location.after, List.count_append,
      List.count_eq_zero_of_not_mem hsep', afterLast_append_of_not_mem _ hsep', hds,
      List.nil_append, List.length_take]
    congr 1
    omega

/-- **Offsets and locations are inverse to each other.** From an offset to its location and back
leads to the last boundary that is not behind the offset, moved into the text. From a line of the
text and a column to their offset and back leads to the line and to the nearest column that it has;
lines before the first lead to the start of the text, and lines after the last to its end. -/
theorem locate_offsetOf_inverse (text : String) :
    (∀ offset : Int, IsGreatest {k : Nat | Boundary (Utf8.ofString text) k ∧
        (k : Int) ≤ min (max offset 0) (Utf8.ofString text).length}
      (offsetOf text (locate (Utf8.ofString text) offset).line
        (locate (Utf8.ofString text) offset).column)) ∧
    ∀ line column : Int,
      (1 ≤ line → line ≤ (linesOf text).length →
        ∃ l, (linesOf text)[(line - 1).toNat]? = some l ∧
          locate (Utf8.ofString text) (offsetOf text line column)
            = ⟨line, min (max column 1) (l.length + 1)⟩) ∧
      (line < 1 → locate (Utf8.ofString text) (offsetOf text line column) = ⟨1, 1⟩) ∧
      ((linesOf text).length < line → locate (Utf8.ofString text) (offsetOf text line column)
        = locate (Utf8.ofString text) (Utf8.ofString text).length) := by
  refine ⟨isGreatest_offsetOf_locate text, fun line column =>
    ⟨locate_offsetOf text column, fun hline => ?_, fun hline => ?_⟩⟩
  · -- in front of the first line
    have hzero : offsetOf text line column = 0 := by
      rw [offsetOf, offsetFrom, if_pos hline]
    rw [hzero]
    exact locate_of_encode [] text.toList
  · -- behind the last line, of which there are as many as starts
    have hlines : (lineStarts (Utf8.ofString text)).length = (linesOf text).length := by
      rw [Utf8.ofString, length_lineStarts_encode, linesOf, List.length_map]
    have hend : offsetOf text line column = (Utf8.ofString text).length := by
      rw [offsetOf, offsetFrom, if_neg (by omega), if_pos (by omega)]
    rw [hend]

/-- An offset inside a character of three octets leads back to where the character starts, and a
column behind the end of a line leads to the end of the line. -/
theorem locate_offsetOf_inverse_wide :
    IsGreatest {k : Nat | Boundary (Utf8.ofString "é\n日b") k ∧
      (k : Int) ≤ min (max 4 0) (Utf8.ofString "é\n日b").length} 3 ∧
    locate (Utf8.ofString "é\n日b") (offsetOf "é\n日b" 2 9) = ⟨2, 3⟩ ∧
    locate (Utf8.ofString "é\n日b") (offsetOf "é\n日b" 0 9) = ⟨1, 1⟩ ∧
    locate (Utf8.ofString "é\n日b") (offsetOf "é\n日b" 3 1) = ⟨2, 3⟩ := by
  obtain ⟨hback, hforth⟩ := locate_offsetOf_inverse "é\n日b"
  refine ⟨?_, ?_, (hforth 0 9).2.1 (by decide), ?_⟩
  · -- Offset 4 is inside the wide character, so its location is that of its first octet.
    have hgreatest := hback 4
    have hthree : offsetOf "é\n日b" (locate (Utf8.ofString "é\n日b") 4).line
        (locate (Utf8.ofString "é\n日b") 4).column = 3 := by decide +kernel
    rwa [hthree] at hgreatest
  · obtain ⟨l, hl, hlocate⟩ := (hforth 2 9).1 (by decide) (by decide +kernel)
    have hsecond : (linesOf "é\n日b")[((2 : Int) - 1).toNat]? = some "日b" := by decide +kernel
    rw [hl] at hsecond
    cases hsecond
    exact hlocate.trans (by decide +kernel)
  · exact ((hforth 3 1).2.2 (by decide +kernel)).trans (by decide +kernel)

/-! ### Order -/

namespace Location

def Before (a b : Location) : Prop :=
  a.line < b.line ∨ a.line = b.line ∧ a.column < b.column

theorem le_iff {a b : Location} :
    a.le b = true ↔ a.line < b.line ∨ a.line = b.line ∧ a.column ≤ b.column := by
  simp [le]

theorem le_refl (a : Location) : a.le a = true :=
  le_iff.mpr (.inr ⟨rfl, Int.le_refl _⟩)

theorem Before.le {a b : Location} (h : Before a b) : a.le b = true := by
  rw [le_iff]
  rcases h with h | ⟨h, hlt⟩
  · exact .inl h
  · exact .inr ⟨h, Int.le_of_lt hlt⟩

/-- Who has passed more characters stands further on. -/
theorem after_before (ds : List Char) {es : List Char} (h : es ≠ []) :
    Before (after ds) (after (ds ++ es)) := by
  have hpos := List.length_pos_iff.mpr h
  rw [after, after, List.count_append]
  -- a line further down if a line feed is passed, a column further on if none is
  by_cases hsep : '\n' ∈ es
  · have hcount := List.count_pos_iff.mpr hsep
    left
    simp only
    omega
  · right
    rw [List.count_eq_zero_of_not_mem hsep, afterLast_append_of_not_mem _ hsep,
      List.length_append]
    simp only
    omega

theorem after_le {ds es : List Char} (h : ds <+: es) : (after ds).le (after es) = true := by
  obtain ⟨fs, rfl⟩ := h
  by_cases hfs : fs = []
  · rw [hfs, List.append_nil]
    exact le_refl _
  · exact (after_before ds hfs).le

end Location

theorem Utf8.before_prefix (cs : List Char) {m n : Nat} (h : m ≤ n) :
    before (encode cs) m <+: before (encode cs) n := by
  obtain ⟨tl, htake, -, -⟩ := exists_take_encode cs m
  have hparts := List.take_append_drop m ((encode cs).take n)
  rw [List.take_take, Nat.min_eq_left h, htake, List.append_assoc] at hparts
  rw [before.eq_def (encode cs) n, ← hparts, decodeSkipping_append]
  exact List.prefix_append _ _

/-- **Locations are in the order of their offsets**, also for offsets outside of the text. -/
theorem locate_le (text : String) {a b : Int} (h : a ≤ b) :
    (locate (Utf8.ofString text) a).le (locate (Utf8.ofString text) b) = true := by
  rw [Utf8.ofString, locate_encode, locate_encode]
  refine Location.after_le (Utf8.before_prefix _ ?_)
  simp only [clampOffset]
  omega

/-- **Different boundaries have different locations.** -/
theorem locate_before (text : String) {j k : Nat} (hj : Boundary (Utf8.ofString text) j)
    (hk : Boundary (Utf8.ofString text) k) (h : j < k) :
    (locate (Utf8.ofString text) j).Before (locate (Utf8.ofString text) k) := by
  rw [Utf8.ofString] at hj hk ⊢
  obtain ⟨hj, ds, hds⟩ := hj
  obtain ⟨hk, es, hes⟩ := hk
  have hprefix := Utf8.before_prefix text.toList (Nat.le_of_lt h)
  rw [locate_encode, locate_encode, clampOffset_natCast hj, clampOffset_natCast hk]
  rw [Utf8.before, Utf8.before, ← hds, ← hes, Utf8.decodeSkipping_encode,
    Utf8.decodeSkipping_encode] at hprefix ⊢
  obtain ⟨fs, rfl⟩ := hprefix
  refine Location.after_before ds fun hfs => ?_
  -- the same characters would have the same octets
  rw [hfs, List.append_nil] at hes
  have hlength := congrArg List.length (hds.symm.trans hes)
  rw [List.length_take, List.length_take] at hlength
  omega

end Lintel
