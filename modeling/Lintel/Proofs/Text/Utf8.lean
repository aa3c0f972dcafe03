import Lintel.Text.Utf8

/-!
# Reading back what was written

Octets are cut into pieces by `Utf8.next`, which looks at one character at a time. This module
shows that the cut undoes `Utf8.encode`, in both directions:

* `decode_encode` — the octets of a list of characters are read back as that list;
* `encode_of_decode` — octets that are read as a list of characters are the octets of that list,
  so nothing but the shortest form of a character is ever accepted.

Both rest on one statement about a single character each. `next_encodeChar` says that the first
piece of the octets of a character is that character, and `encodeChar_of_next` says that a piece
which is a character is made of that character's octets. They are proved width by width: `next`
and the octets of a character are computed once for each of the four widths (`next_one` to
`next_four`, `encodeChar_one` to `encodeChar_four`).

A list of octets **is text** (`IsText`) if it is the octets of some characters. Text is closed
under concatenation, and a text can be cancelled on the left (`IsText.of_append_left`): no
character's octets begin with those of another one.
-/

namespace Lintel.Utf8

/-! ### Code points and octets -/

/-- A code point is not half of a surrogate pair, and it is at most `0x10FFFF`. -/
theorem toNat_lt_or (c : Char) : c.toNat < 0xD800 ∨ 0xDFFF < c.toNat ∧ c.toNat < 0x110000 :=
  c.valid

theorem toNat_octet {n : Nat} (h : n < 256) : (UInt8.ofNat n).toNat = n := by
  rw [UInt8.toNat_ofNat']
  omega

theorem octet_eq {n : Nat} {b : UInt8} (h : n = b.toNat) : UInt8.ofNat n = b := by
  rw [h, UInt8.ofNat_toNat]

/-- The code point of `Char.ofNat n`, if there is a character with that code point. -/
theorem toNat_ofNat {n : Nat} (h : n < 0xD800 ∨ 0xDFFF < n ∧ n < 0x110000) :
    (Char.ofNat n).toNat = n := by
  rw [Char.ofNat, dif_pos h]
  rfl

theorem isTail_iff {b : UInt8} : isTail b = true ↔ 0x80 ≤ b.toNat ∧ b.toNat ≤ 0xBF := by
  simp [isTail]

/-- The second octet of a character is a tail octet, with a narrower range after four of the
first octets. -/
theorem isSecond_iff {lead : Nat} {b : UInt8} :
    isSecond lead b = true ↔ (0x80 ≤ b.toNat ∧ b.toNat ≤ 0xBF) ∧ (lead = 0xE0 → 0xA0 ≤ b.toNat) ∧
      (lead = 0xED → b.toNat ≤ 0x9F) ∧ (lead = 0xF0 → 0x90 ≤ b.toNat) ∧
      (lead = 0xF4 → b.toNat ≤ 0x8F) := by
  unfold isSecond
  simp only [isTail]
  -- one first octet after the other, and all others at last
  split
  · simp only [Bool.and_eq_true, decide_eq_true_eq]; omega
  · split
    · simp only [Bool.and_eq_true, decide_eq_true_eq]; omega
    · split
      · simp only [Bool.and_eq_true, decide_eq_true_eq]; omega
      · split <;> simp only [Bool.and_eq_true, decide_eq_true_eq] <;> omega

theorem isTail_octet {n : Nat} (h : n < 64) : isTail (UInt8.ofNat (n + 0x80)) = true := by
  rw [isTail_iff, toNat_octet (by omega)]
  omega

theorem tailBits_octet {n : Nat} (h : n < 64) : tailBits (UInt8.ofNat (n + 0x80)) = n := by
  rw [tailBits, toNat_octet (by omega)]
  omega

/-! ### The first piece, width by width -/

theorem next_one {b : UInt8} (h : b.toNat < 0x80) (rest : Bytes) :
    next b rest = .char (Char.ofNat b.toNat) 1 := by
  simp only [next]
  rw [if_pos h]

theorem next_two {b b₁ : UInt8} (h : 0xC2 ≤ b.toNat ∧ b.toNat < 0xE0) (h₁ : isTail b₁ = true)
    (rest : Bytes) :
    next b (b₁ :: rest) = .char (Char.ofNat ((b.toNat - 0xC0) * 64 + tailBits b₁)) 2 := by
  simp only [next]
  rw [if_neg (by omega), if_neg (by omega), if_pos h.2, if_pos h₁]

theorem next_three {b b₁ b₂ : UInt8} (h : 0xE0 ≤ b.toNat ∧ b.toNat < 0xF0)
    (h₁ : isSecond b.toNat b₁ = true) (h₂ : isTail b₂ = true) (rest : Bytes) :
    next b (b₁ :: b₂ :: rest)
      = .char (Char.ofNat (((b.toNat - 0xE0) * 64 + tailBits b₁) * 64 + tailBits b₂)) 3 := by
  simp only [next]
  rw [if_neg (by omega), if_neg (by omega), if_neg (by omega), if_pos h.2, if_pos h₁, if_pos h₂]

theorem next_four {b b₁ b₂ b₃ : UInt8} (h : 0xF0 ≤ b.toNat ∧ b.toNat < 0xF5)
    (h₁ : isSecond b.toNat b₁ = true) (h₂ : isTail b₂ = true) (h₃ : isTail b₃ = true)
    (rest : Bytes) :
    next b (b₁ :: b₂ :: b₃ :: rest)
      = .char (Char.ofNat
          ((((b.toNat - 0xF0) * 64 + tailBits b₁) * 64 + tailBits b₂) * 64 + tailBits b₃)) 4 := by
  simp only [next]
  rw [if_neg (by omega), if_neg (by omega), if_neg (by omega), if_neg (by omega), if_pos h.2,
    if_pos h₁, if_pos h₂, if_pos h₃]

/-! ### The octets of a character, width by width -/

theorem encodeChar_one {b : UInt8} (h : b.toNat < 0x80) :
    String.utf8EncodeChar (Char.ofNat b.toNat) = [b] := by
  have hv : (Char.ofNat b.toNat).val.toNat = b.toNat := toNat_ofNat (by omega)
  unfold String.utf8EncodeChar
  simp only [hv]
  rw [if_pos (by omega), octet_eq rfl]

theorem encodeChar_two {b b₁ : UInt8} (h : 0xC2 ≤ b.toNat ∧ b.toNat < 0xE0)
    (h₁ : isTail b₁ = true) :
    String.utf8EncodeChar (Char.ofNat ((b.toNat - 0xC0) * 64 + tailBits b₁)) = [b, b₁] := by
  rw [isTail_iff] at h₁
  unfold tailBits
  -- the value has eleven bits, so it is no surrogate
  have hv : (Char.ofNat ((b.toNat - 0xC0) * 64 + b₁.toNat % 64)).val.toNat
      = (b.toNat - 0xC0) * 64 + b₁.toNat % 64 := toNat_ofNat (by omega)
  unfold String.utf8EncodeChar
  simp only [hv]
  rw [if_neg (by omega), if_pos (by omega)]
  congr 1
  · exact octet_eq (by omega)
  · rw [octet_eq (b := b₁) (by omega)]

theorem encodeChar_three {b b₁ b₂ : UInt8} (h : 0xE0 ≤ b.toNat ∧ b.toNat < 0xF0)
    (h₁ : isSecond b.toNat b₁ = true) (h₂ : isTail b₂ = true) :
    String.utf8EncodeChar
        (Char.ofNat (((b.toNat - 0xE0) * 64 + tailBits b₁) * 64 + tailBits b₂))
      = [b, b₁, b₂] := by
  rw [isSecond_iff] at h₁
  rw [isTail_iff] at h₂
  unfold tailBits
  -- the narrow ranges after `E0` and `ED` keep the value out of two octets and of the surrogates
  have hv : (Char.ofNat (((b.toNat - 0xE0) * 64 + b₁.toNat % 64) * 64 + b₂.toNat % 64)).val.toNat
      = ((b.toNat - 0xE0) * 64 + b₁.toNat % 64) * 64 + b₂.toNat % 64 := toNat_ofNat (by omega)
  unfold String.utf8EncodeChar
  simp only [hv]
  rw [if_neg (by omega), if_neg (by omega), if_pos (by omega)]
  rw [octet_eq (b := b) (by omega), octet_eq (b := b₁) (by omega), octet_eq (b := b₂) (by omega)]

theorem encodeChar_four {b b₁ b₂ b₃ : UInt8} (h : 0xF0 ≤ b.toNat ∧ b.toNat < 0xF5)
    (h₁ : isSecond b.toNat b₁ = true) (h₂ : isTail b₂ = true) (h₃ : isTail b₃ = true) :
    String.utf8EncodeChar
        (Char.ofNat
          ((((b.toNat - 0xF0) * 64 + tailBits b₁) * 64 + tailBits b₂) * 64 + tailBits b₃))
      = [b, b₁, b₂, b₃] := by
  rw [isSecond_iff] at h₁
  rw [isTail_iff] at h₂ h₃
  unfold tailBits
  -- the narrow ranges after `F0` and `F4` keep the value above three octets and in range
  have hv : (Char.ofNat ((((b.toNat - 0xF0) * 64 + b₁.toNat % 64) * 64 + b₂.toNat % 64) * 64
        + b₃.toNat % 64)).val.toNat
      = (((b.toNat - 0xF0) * 64 + b₁.toNat % 64) * 64 + b₂.toNat % 64) * 64 + b₃.toNat % 64 :=
    toNat_ofNat (by omega)
  unfold String.utf8EncodeChar
  simp only [hv]
  rw [if_neg (by omega), if_neg (by omega), if_neg (by omega)]
  rw [octet_eq (b := b) (by omega), octet_eq (b := b₁) (by omega), octet_eq (b := b₂) (by omega),
    octet_eq (b := b₃) (by omega)]

/-- **A piece that is a character is made of that character's octets.** -/
theorem encodeChar_of_next {b : UInt8} {rest : Bytes} {c : Char} {w : Nat}
    (h : next b rest = .char c w) :
    0 < w ∧ b :: rest = String.utf8EncodeChar c ++ rest.drop (w - 1) := by
  unfold next at h
  simp only at h
  -- one case for each branch of `next`; the branches with a broken piece are impossible
  split at h
  · -- one octet
    next hb =>
    obtain ⟨rfl, rfl⟩ : _ = c ∧ 1 = w := by simpa using h
    rw [encodeChar_one hb]
    simp
  split at h
  · -- a tail octet, or a first octet of a form that is not the shortest
    cases h
  split at h
  · -- two octets
    next hb =>
    cases rest with
    | nil => cases h
    | cons b₁ tl =>
      simp only at h
      split at h
      · next h₁ =>
        obtain ⟨rfl, rfl⟩ : _ = c ∧ 2 = w := by simpa using h
        rw [encodeChar_two (by omega) h₁]
        simp
      · cases h
  split at h
  · -- three octets; a text that ends early gives a broken piece
    next hb =>
    match rest, h with
    | [], h => cases h
    | [b₁], h =>
      simp only at h
      split at h <;> cases h
    | b₁ :: b₂ :: tl, h =>
      simp only at h
      split at h
      · next h₁ =>
        split at h
        · next h₂ =>
          obtain ⟨rfl, rfl⟩ : _ = c ∧ 3 = w := by simpa using h
          rw [encodeChar_three (by omega) h₁ h₂]
          simp
        · cases h
      · cases h
  split at h
  · -- four octets
    next hb =>
    match rest, h with
    | [], h => cases h
    | [b₁], h =>
      simp only at h
      split at h <;> cases h
    | [b₁, b₂], h =>
      simp only at h
      split at h
      · split at h <;> cases h
      · cases h
    | b₁ :: b₂ :: b₃ :: tl, h =>
      simp only at h
      split at h
      · next h₁ =>
        split at h
        · next h₂ =>
          split at h
          · next h₃ =>
            obtain ⟨rfl, rfl⟩ : _ = c ∧ 4 = w := by simpa using h
            rw [encodeChar_four (by omega) h₁ h₂ h₃]
            simp
          · cases h
        · cases h
      · cases h
  · cases h

/-- **The first piece of the octets of a character is that character.** -/
theorem next_encodeChar {c : Char} {b : UInt8} {tl rest : Bytes}
    (h : String.utf8EncodeChar c ++ rest = b :: tl) :
    next b tl = .char c (String.utf8EncodeChar c).length := by
  have hv := toNat_lt_or c
  have hc : c.val.toNat = c.toNat := rfl
  unfold String.utf8EncodeChar at h ⊢
  simp only [hc] at h ⊢
  -- the cases are the widths; in each, the bits that were taken apart are put together again
  split at h
  · next h₁ =>
    rw [if_pos h₁]
    simp only [List.cons_append, List.nil_append, List.cons.injEq] at h
    obtain ⟨rfl, rfl⟩ := h
    rw [next_one (by rw [toNat_octet (by omega)]; omega), toNat_octet (by omega)]
    simp
  next h₁ =>
  rw [if_neg h₁]
  split at h
  · next h₂ =>
    rw [if_pos h₂]
    simp only [List.cons_append, List.nil_append, List.cons.injEq] at h
    obtain ⟨rfl, rfl⟩ := h
    rw [next_two (by rw [toNat_octet (by omega)]; omega) (isTail_octet (by omega)),
      toNat_octet (by omega), tailBits_octet (by omega),
      show (c.toNat / 64 % 32 + 0xC0 - 0xC0) * 64 + c.toNat % 64 = c.toNat by omega]
    simp
  next h₂ =>
  rw [if_neg h₂]
  split at h
  · next h₃ =>
    rw [if_pos h₃]
    simp only [List.cons_append, List.nil_append, List.cons.injEq] at h
    obtain ⟨rfl, rfl⟩ := h
    -- a character of three octets is above those of two, and it is no surrogate
    have hs : isSecond (UInt8.ofNat (c.toNat / 4096 % 16 + 0xE0)).toNat
        (UInt8.ofNat (c.toNat / 64 % 64 + 0x80)) = true := by
      rw [isSecond_iff, toNat_octet (by omega), toNat_octet (by omega)]
      omega
    rw [next_three (by rw [toNat_octet (by omega)]; omega) hs (isTail_octet (by omega)),
      toNat_octet (by omega), tailBits_octet (by omega), tailBits_octet (by omega),
      show ((c.toNat / 4096 % 16 + 0xE0 - 0xE0) * 64 + c.toNat / 64 % 64) * 64 + c.toNat % 64
        = c.toNat by omega]
    simp
  · next h₃ =>
    rw [if_neg h₃]
    simp only [List.cons_append, List.nil_append, List.cons.injEq] at h
    obtain ⟨rfl, rfl⟩ := h
    -- a character of four octets is above those of three, and it is a code point
    have hs : isSecond (UInt8.ofNat (c.toNat / 262144 % 8 + 0xF0)).toNat
        (UInt8.ofNat (c.toNat / 4096 % 64 + 0x80)) = true := by
      rw [isSecond_iff, toNat_octet (by omega), toNat_octet (by omega)]
      omega
    rw [next_four (by rw [toNat_octet (by omega)]; omega) hs (isTail_octet (by omega))
        (isTail_octet (by omega)),
      toNat_octet (by omega), tailBits_octet (by omega), tailBits_octet (by omega),
      tailBits_octet (by omega),
      show (((c.toNat / 262144 % 8 + 0xF0 - 0xF0) * 64 + c.toNat / 4096 % 64) * 64
        + c.toNat / 64 % 64) * 64 + c.toNat % 64 = c.toNat by omega]
    simp

/-! ### Whole texts -/

theorem piecesAfter_eq (n : Nat) (bs : Bytes) : piecesAfter n bs = pieces (bs.drop n) := by
  induction bs generalizing n with
  | nil => simp [pieces, piecesAfter]
  | cons b rest ih =>
    -- The counter skips the octets that belong to the character before.
    cases n with
    | zero => rfl
    | succ n =>
      rw [piecesAfter, ih]
      rfl

theorem pieces_cons (b : UInt8) (rest : Bytes) :
    pieces (b :: rest) = next b rest :: pieces (rest.drop ((next b rest).width - 1)) := by
  rw [pieces, piecesAfter, piecesAfter_eq]

theorem pieces_encodeChar (c : Char) (rest : Bytes) :
    pieces (String.utf8EncodeChar c ++ rest)
      = .char c (String.utf8EncodeChar c).length :: pieces rest := by
  obtain ⟨b, tl, htl⟩ := List.exists_cons_of_ne_nil (String.utf8EncodeChar_ne_nil (c := c))
  have hnext : next b (tl ++ rest) = .char c (String.utf8EncodeChar c).length :=
    next_encodeChar (show String.utf8EncodeChar c ++ rest = _ by rw [htl, List.cons_append])
  rw [htl, List.cons_append, pieces_cons, hnext, htl]
  simp [Piece.width]

theorem readPieces_encode (bs : Bytes) (cs : List Char) (position : Nat) :
    readPieces bs position (pieces (encode cs)) = .ok cs := by
  induction cs generalizing position with
  | nil => rfl
  | cons c cs ih =>
    rw [encode_cons, pieces_encodeChar, readPieces, ih]
    rfl

/-- **What was written is read back.** -/
@[simp] theorem decode_encode (cs : List Char) : decode (encode cs) = .ok cs :=
  readPieces_encode _ cs 0

/-- The characters of the pieces of `bs`, read from anywhere, have the octets `bs`. The induction
is on the length of `bs`: a character takes at least one octet. -/
theorem encode_of_readPieces (whole : Bytes) :
    ∀ (n : Nat) (bs : Bytes), bs.length ≤ n → ∀ (position : Nat) (cs : List Char),
      readPieces whole position (pieces bs) = .ok cs → encode cs = bs := by
  -- On the length, since a character takes more than one octet off the front.
  intro n
  induction n with
  | zero =>
    intro bs hn position cs h
    obtain rfl : bs = [] := List.length_eq_zero_iff.mp (by omega)
    cases h
    rfl
  | succ n ih =>
    intro bs hn position cs h
    cases bs with
    | nil =>
      cases h
      rfl
    | cons b rest =>
      rw [pieces_cons] at h
      cases hp : next b rest with
      | broken w why =>
        rw [hp] at h
        cases h
      | char c w =>
        rw [hp, readPieces, Piece.width] at h
        obtain ⟨hw, hb⟩ := encodeChar_of_next hp
        cases hr : readPieces whole (position + w) (pieces (rest.drop (w - 1))) with
        | error bad =>
          rw [hr] at h
          cases h
        | ok ds =>
          rw [hr] at h
          cases h
          -- the rest is shorter, whatever the width of the first character
          have hlen : (rest.drop (w - 1)).length ≤ n := by
            rw [List.length_cons] at hn
            rw [List.length_drop]
            omega
          rw [encode_cons, ih _ hlen _ _ hr, ← hb]

/-- **What is read has been written**: octets that are read as characters are their octets. -/
theorem encode_of_decode {bs : Bytes} {cs : List Char} (h : decode bs = .ok cs) :
    encode cs = bs :=
  encode_of_readPieces bs bs.length bs (Nat.le_refl _) 0 cs h

@[simp] theorem ofString_ofList (cs : List Char) : ofString (String.ofList cs) = encode cs := by
  rw [ofString, String.toList_ofList]

theorem encode_eq_nil {cs : List Char} : encode cs = [] ↔ cs = [] := by
  cases cs with
  | nil => exact ⟨fun _ => rfl, fun _ => rfl⟩
  | cons c cs =>
    refine ⟨fun h => ?_, fun h => (nomatch h)⟩
    rw [encode_cons, List.append_eq_nil_iff] at h
    exact absurd h.1 String.utf8EncodeChar_ne_nil

theorem ofString_injective : Function.Injective ofString := by
  intro s t h
  have hread := congrArg decode h
  rw [ofString, ofString, decode_encode, decode_encode] at hread
  exact String.toList_injective (Except.ok.inj hread)

/-! ### Octets that are text -/

/-- Octets that are those of some characters. -/
def IsText (bs : Bytes) : Prop :=
  ∃ cs, encode cs = bs

theorem isText_ofString (s : String) : IsText (ofString s) :=
  ⟨s.toList, rfl⟩

theorem IsText.append {xs ys : Bytes} (hx : IsText xs) (hy : IsText ys) : IsText (xs ++ ys) := by
  obtain ⟨cs, rfl⟩ := hx
  obtain ⟨ds, rfl⟩ := hy
  exact ⟨cs ++ ds, encode_append cs ds⟩

theorem isText_iff {bs : Bytes} : IsText bs ↔ ∃ cs, decode bs = .ok cs := by
  constructor
  · rintro ⟨cs, rfl⟩
    exact ⟨cs, decode_encode cs⟩
  · rintro ⟨cs, h⟩
    exact ⟨cs, encode_of_decode h⟩

/-- Characters whose octets begin with those of `ds` begin with `ds`. -/
theorem exists_append_of_encode_eq {cs ds : List Char} {ys : Bytes}
    (h : encode cs = encode ds ++ ys) : ∃ es, cs = ds ++ es ∧ encode es = ys := by
  induction ds generalizing cs with
  | nil => exact ⟨cs, rfl, h⟩
  | cons d ds ih =>
    rw [encode_cons, List.append_assoc] at h
    -- the first piece on the right is `d`, so the first character on the left is
    have hp : pieces (encode cs)
        = .char d (String.utf8EncodeChar d).length :: pieces (encode ds ++ ys) := by
      rw [h, pieces_encodeChar]
    cases cs with
    | nil => cases hp
    | cons c cs =>
      rw [encode_cons, pieces_encodeChar] at hp
      obtain rfl : c = d := by
        injection hp with hc _
        injection hc
      rw [encode_cons] at h
      obtain ⟨es, rfl, hes⟩ := ih (List.append_cancel_left h)
      exact ⟨es, rfl, hes⟩

/-- **Text can be cancelled on the left.** -/
theorem IsText.of_append_left {xs ys : Bytes} (h : IsText (xs ++ ys)) (hx : IsText xs) :
    IsText ys := by
  obtain ⟨cs, hcs⟩ := h
  obtain ⟨ds, rfl⟩ := hx
  obtain ⟨es, -, hes⟩ := exists_append_of_encode_eq hcs
  exact ⟨es, hes⟩

end Lintel.Utf8
