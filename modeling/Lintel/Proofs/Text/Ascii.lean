import Lintel.Proofs.Edit.Splice

/-!
# Octets below 0x80

Rules that look for brackets or blanks look at octets, not at characters. That is safe because of
how characters are written: an octet below `0x80` is a character of its own, and the octets of all
other characters are `0x80` or above (`encodeChar_cases`). So wherever such an octet stands in the
octets of a text, characters end before it and begin after it (`exists_of_encode_eq`), and both of
its sides are boundaries (`boundary_of_ascii`, `boundary_after_ascii`). It does not matter either
whether one looks for characters or for octets outside ASCII, even where octets cannot be read
(`any_decodeLossy_iff`). The letters among them lie in two ranges (`toNat_of_isAlpha`).
-/

namespace Lintel

namespace Utf8

/-- A character is written as one octet below `0x80`, or with octets none of which is. -/
theorem encodeChar_cases (c : Char) :
    (∃ b : UInt8, b.toNat < 0x80 ∧ c = Char.ofNat b.toNat ∧ String.utf8EncodeChar c = [b]) ∨
      ∀ b ∈ String.utf8EncodeChar c, 0x80 ≤ b.toNat := by
  have hc : c.val.toNat = c.toNat := rfl
  unfold String.utf8EncodeChar
  simp only [hc]
  split
  · next h =>
    -- Below 0x80 the one octet is the number of the character.
    left
    refine ⟨UInt8.ofNat c.toNat, ?_, ?_, rfl⟩
    · rw [toNat_octet (by omega)]
      omega
    · rw [toNat_octet (by omega), Char.ofNat_toNat]
  · -- the first octet is at least `C0`, and the others are at least `80`
    right
    have htail : ∀ n, 0x80 ≤ (UInt8.ofNat (n % 64 + 0x80)).toNat := by
      intro n
      rw [toNat_octet (by omega)]
      omega
    intro b hb
    split at hb
    · simp only [List.mem_cons, List.not_mem_nil, or_false] at hb
      rcases hb with rfl | rfl
      · rw [toNat_octet (by omega)]
        omega
      · exact htail _
    · split at hb
      · simp only [List.mem_cons, List.not_mem_nil, or_false] at hb
        rcases hb with rfl | rfl | rfl
        · rw [toNat_octet (by omega)]
          omega
        · exact htail _
        · exact htail _
      · simp only [List.mem_cons, List.not_mem_nil, or_false] at hb
        rcases hb with rfl | rfl | rfl | rfl
        · rw [toNat_octet (by omega)]
          omega
        · exact htail _
        · exact htail _
        · exact htail _

/-- **An octet below 0x80 stands between characters.** -/
theorem exists_of_encode_eq {b : UInt8} (hb : b.toNat < 0x80) {cs : List Char} {xs ys : Bytes}
    (h : encode cs = xs ++ b :: ys) :
    ∃ ds es, cs = ds ++ Char.ofNat b.toNat :: es ∧ encode ds = xs ∧ encode es = ys := by
  induction cs generalizing xs with
  | nil =>
    rw [encode_nil] at h
    cases xs <;> cases h
  | cons c cs ih =>
    rw [encode_cons, List.append_eq_append_iff] at h
    rcases h with ⟨zs, hxs, hcs⟩ | ⟨zs, hc, hys⟩
    · -- the octet comes after the first character
      obtain ⟨ds, es, rfl, hds, hes⟩ := ih hcs
      exact ⟨c :: ds, es, rfl, by rw [encode_cons, hds, hxs], hes⟩
    · cases zs with
      | nil =>
        -- the first character ends where the octet stands
        rw [List.append_nil] at hc
        rw [List.nil_append] at hys
        obtain ⟨ds, es, rfl, hds, hes⟩ := ih (show encode cs = [] ++ b :: ys from hys.symm)
        exact ⟨c :: ds, es, rfl, by rw [encode_cons, hds, hc, List.append_nil], hes⟩
      | cons z zs =>
        -- the octet is one of the first character, which is written with it alone
        rw [List.cons_append, List.cons.injEq] at hys
        obtain ⟨rfl, rfl⟩ := hys
        have hmem : b ∈ String.utf8EncodeChar c := by
          rw [hc]
          exact List.mem_append_right _ List.mem_cons_self
        rcases encodeChar_cases c with ⟨a, -, hca, hone⟩ | hhigh
        · rw [hone, List.mem_singleton] at hmem
          subst hmem
          rw [hone] at hc
          obtain ⟨rfl, rfl⟩ : xs = [] ∧ zs = [] := by
            have hlen := congrArg List.length hc
            simp only [List.length_append, List.length_cons, List.length_nil] at hlen
            exact ⟨List.length_eq_zero_iff.mp (by omega), List.length_eq_zero_iff.mp (by omega)⟩
          exact ⟨[], cs, by rw [hca, List.nil_append], rfl, rfl⟩
        · have hle := hhigh b hmem
          omega

theorem isText_between {b c : UInt8} (hb : b.toNat < 0x80) (hc : c.toNat < 0x80) {xs ys zs : Bytes}
    (h : IsText (xs ++ b :: (ys ++ c :: zs))) : IsText ys := by
  obtain ⟨cs, hcs⟩ := h
  obtain ⟨ds, es, -, -, hes⟩ := exists_of_encode_eq hb hcs
  obtain ⟨fs, gs, -, hfs, -⟩ := exists_of_encode_eq hc hes
  exact ⟨fs, hfs⟩

/-- What was written is read back, also by a reader that replaces what it cannot read. -/
@[simp] theorem decodeLossy_encode (cs : List Char) : decodeLossy (encode cs) = cs := by
  induction cs with
  | nil => rfl
  | cons c cs ih =>
    rw [decodeLossy] at ih
    rw [encode_cons, decodeLossy, pieces_encodeChar, List.map_cons, ih]

theorem encode_decodeLossy {bs : Bytes} (h : IsText bs) : encode (decodeLossy bs) = bs := by
  obtain ⟨cs, rfl⟩ := h
  rw [decodeLossy_encode]

theorem toNat_lt_of_next {b : UInt8} {rest : Bytes} {c : Char} {w : Nat}
    (h : next b rest = .char c w) (hc : c.toNat < 0x80) : b.toNat < 0x80 := by
  -- The octets read are the encoding of the character, which for ASCII is the one octet.
  obtain ⟨-, hsplit⟩ := encodeChar_of_next h
  have hoctet : (UInt8.ofNat c.toNat).toNat = c.toNat := toNat_octet (by omega)
  have hone := encodeChar_one (b := UInt8.ofNat c.toNat) (by omega)
  rw [hoctet, Char.ofNat_toNat] at hone
  rw [hone, List.singleton_append, List.cons.injEq] at hsplit
  rw [hsplit.1, hoctet]
  exact hc

/-- **A reader that replaces what it cannot read sees characters outside ASCII exactly where octets
are 0x80 or above**: the replacement is such a character too. -/
theorem any_decodeLossy_iff (bs : Bytes) :
    ((decodeLossy bs).any fun c => decide (0x7F < c.toNat)) = true ↔
      ∃ b ∈ bs, 0x80 ≤ b.toNat := by
  induction bs with
  | nil => simp [decodeLossy, pieces, piecesAfter]
  | cons b rest ih =>
    rw [decodeLossy, pieces_cons, List.map_cons, List.any_cons, Bool.or_eq_true]
    simp only [List.mem_cons, exists_eq_or_imp]
    by_cases hb : b.toNat < 0x80
    · -- an octet of its own, and the reader goes on behind it
      have hchar : (Char.ofNat b.toNat).toNat = b.toNat := toNat_ofNat (by omega)
      rw [next_one hb]
      simp only [hchar, Piece.width, Nat.sub_self, List.drop_zero, decide_eq_true_eq]
      rw [decodeLossy] at ih
      rw [ih]
      exact or_congr_left (by omega)
    · -- the character of such an octet is outside ASCII, whether it could be read or not
      refine iff_of_true (.inl ?_) (.inl (by omega))
      cases hnext : next b rest with
      | char c w =>
        have hc : ¬c.toNat < 0x80 := fun hc => hb (toNat_lt_of_next hnext hc)
        exact decide_eq_true (show 0x7F < c.toNat by omega)
      | broken w why => rfl

end Utf8

/-! ### Boundaries -/

theorem boundary_of_ascii {b : UInt8} (hb : b.toNat < 0x80) {xs ys : Bytes}
    (h : Utf8.IsText (xs ++ b :: ys)) : Boundary (xs ++ b :: ys) xs.length := by
  obtain ⟨cs, hcs⟩ := h
  obtain ⟨ds, es, -, hds, -⟩ := Utf8.exists_of_encode_eq hb hcs
  refine ⟨by rw [List.length_append]; omega, ?_⟩
  rw [List.take_left]
  exact ⟨ds, hds⟩

theorem boundary_after_ascii {b : UInt8} (hb : b.toNat < 0x80) {xs ys : Bytes}
    (h : Utf8.IsText (xs ++ b :: ys)) : Boundary (xs ++ b :: ys) (xs.length + 1) := by
  obtain ⟨cs, hcs⟩ := h
  obtain ⟨ds, es, hsplit, hds, -⟩ := Utf8.exists_of_encode_eq hb hcs
  refine ⟨by rw [List.length_append, List.length_cons]; omega, ?_⟩
  -- the characters before, and the one that the octet is
  refine ⟨ds ++ [Char.ofNat b.toNat], ?_⟩
  rw [Utf8.encode_append, hds, Utf8.encode_cons, Utf8.encode_nil, Utf8.encodeChar_one hb,
    List.append_nil]
  have hlen : xs.length + 1 = (xs ++ [b]).length := by
    rw [List.length_append, List.length_singleton]
  rw [hlen, List.append_cons xs b ys, List.take_left]

theorem boundaries_of_drop_eq {bs : Bytes} (ht : Utf8.IsText bs) {b : UInt8} (hb : b.toNat < 0x80)
    {k : Nat} (h : bs.drop k = b :: bs.drop (k + 1)) : Boundary bs k ∧ Boundary bs (k + 1) := by
  have hsplit : bs = bs.take k ++ b :: bs.drop (k + 1) := by rw [← h, List.take_append_drop]
  -- the octet is there, so the text is longer than `k`
  have hlength : (bs.take k).length = k := by
    have hdrop := congrArg List.length h
    rw [List.length_drop, List.length_cons] at hdrop
    rw [List.length_take]
    omega
  have hbefore := boundary_of_ascii hb (hsplit ▸ ht)
  have hafter := boundary_after_ascii hb (hsplit ▸ ht)
  rw [← hsplit, hlength] at hbefore hafter
  exact ⟨hbefore, hafter⟩

/-! ### Letters -/

theorem toNat_of_isAlpha {c : Char} (h : c.isAlpha = true) :
    0x41 ≤ c.toNat ∧ c.toNat ≤ 0x5A ∨ 0x61 ≤ c.toNat ∧ c.toNat ≤ 0x7A := by
  have hcase : (c.isUpper || c.isLower) = true := h
  rcases (Bool.or_eq_true _ _).mp hcase with hupper | hlower
  · exact .inl (of_decide_eq_true hupper)
  · obtain ⟨hleast, hmost⟩ := (Bool.and_eq_true _ _).mp hlower
    exact .inr ⟨of_decide_eq_true hleast, of_decide_eq_true hmost⟩

end Lintel
