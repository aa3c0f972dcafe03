import Lintel.Libraries
import Lintel.Proofs.Text.Ascii
import Lintel.Proofs.Yaml.Written

/-!
# Names

A name is a key that is written as it is, in front of its colon (`IsName`). A word of letters and
slashes is one, if it is neither short enough for the word of a truth value nor too long for a key
(`Documents.Page.IsWord.isName`): every number and every moment has a digit, a sign or a point at its
start, and no mark of the language is a letter.
-/

namespace Lintel

namespace Yaml

/-- A name that is written as it is in front of a colon. -/
structure IsName (name : String) : Prop where
  fits : fitsPlain name.toList = true
  word : runsOf name.toList = [.word name.toList]
  letter : (name.toList.head?.map Char.isAlpha) = some true
  short : name.length ≤ keyWidth

namespace IsName

variable {name : String}

theorem isKey (h : IsName name) : IsKey name.toList := by
  have hword : IsPlainWord name.toList := by
    have hruns := (fitsPlain_iff.mp h.fits).isPlainRuns
    rw [h.word] at hruns
    exact hruns
  refine ⟨hword, fun ch hch => ?_, ?_⟩
  · have hletter := h.letter
    rw [hch, Option.map_some, Option.some.injEq] at hletter
    -- A name starts with a letter, and none of the marks is one.
    have hnot : ∀ m : Char, m.isAlpha = false → ch ≠ m := by
      rintro m hm rfl
      rw [hletter] at hm
      cases hm
    refine ⟨?_, hnot _ (by decide), hnot _ (by decide), hnot _ (by decide), hnot _ (by decide)⟩
    have hmarks : leadingMarks.all (fun m => !m.isAlpha) = true := by decide
    rw [List.contains_eq_mem, decide_eq_false_iff_not]
    intro hmem
    have hletter := List.all_eq_true.mp hmarks ch hmem
    rw [Bool.not_eq_true'] at hletter
    exact hnot ch hletter rfl
  · have hshort := h.short
    rw [String.length_toList]
    exact Nat.le_trans hshort (by decide)

theorem head (h : IsName name) {after : List Char} {ch : Char}
    (hch : (name.toList ++ after).head? = some ch) :
    (ch ≠ ' ' ∧ ch ≠ '#' ∧ isBreak ch = false) ∧ ch ≠ '-' ∧ ch ≠ '.' := by
  have hkey := h.isKey
  rw [hkey.word.head?_append] at hch
  obtain ⟨w, hw⟩ := List.head?_eq_some_iff.mp hch
  -- The first character of a name is a letter, which is none of the marks.
  obtain ⟨hplain, hspace⟩ := hkey.word.plain ch (by rw [hw]; exact List.mem_cons_self)
  obtain ⟨-, -, -, hdash, hpoint⟩ := hkey.letter ch hch
  refine ⟨⟨hspace, fun heq => hkey.word.start ?_, isBreak_of_isPlainAscii hplain⟩, hdash, hpoint⟩
  rw [hch, heq]

theorem isSimpleKey (h : IsName name) : isSimpleKey name = true := by
  have hkey := h.isKey
  have hempty : name.isEmpty = false := by
    rw [Bool.eq_false_iff, Ne, String.isEmpty_iff]
    rintro rfl
    exact hkey.word.ne_nil rfl
  have hbreak : name.toList.any isBreak = false := by
    rw [List.any_eq_false]
    intro ch hch
    rw [isBreak_of_isPlainAscii (hkey.word.plain ch hch).1]
    exact Bool.false_ne_true
  rw [Yaml.isSimpleKey, hempty, hbreak, decide_eq_true h.short]
  rfl

theorem writeText (h : IsName name) (isKey : Bool) (indent column : Nat) :
    writeText isKey indent column name = name := by
  rw [Yaml.writeText]
  unfold styleOf
  rw [if_pos h.fits, h.word]
  change String.ofList (name.toList ++ []) = name
  rw [List.append_nil, String.ofList_toList]

end IsName

/-! ### Letters and slashes -/

def IsWordChar (c : Char) : Prop := c.isAlpha = true ∨ c = '/'

instance (c : Char) : Decidable (IsWordChar c) :=
  inferInstanceAs (Decidable (_ ∨ _))

theorem IsWordChar.ne {c m : Char} (h : IsWordChar c) (hm : ¬ IsWordChar m) : c ≠ m := by
  rintro rfl
  exact hm h

theorem IsWordChar.not_mem {cs : List Char} (h : ∀ c ∈ cs, IsWordChar c) {m : Char}
    (hm : ¬ IsWordChar m) : m ∉ cs := fun hmem => hm (h m hmem)

theorem IsWordChar.range {c : Char} (h : IsWordChar c) :
    c.toNat = 0x2F ∨ 0x41 ≤ c.toNat ∧ c.toNat ≤ 0x5A ∨ 0x61 ≤ c.toNat ∧ c.toNat ≤ 0x7A := by
  rcases h with h | rfl
  · exact .inr (toNat_of_isAlpha h)
  · exact .inl rfl

theorem IsWordChar.isPlainAscii {c : Char} (h : IsWordChar c) : isPlainAscii c = true := by
  have hrange := h.range
  rw [Yaml.isPlainAscii, Bool.and_eq_true, decide_eq_true_eq, decide_eq_true_eq]
  omega

theorem not_isDigit_of_isAlpha {c : Char} (h : c.isAlpha = true) : c.isDigit = false := by
  have hrange := IsWordChar.range (.inl h)
  rw [Char.isDigit, Bool.and_eq_false_iff, decide_eq_false_iff_not, decide_eq_false_iff_not]
  change ¬ 0x30 ≤ c.toNat ∨ ¬ c.toNat ≤ 0x39
  omega

theorem runsOf_word {cs : List Char} (hne : cs ≠ []) (h : ∀ c ∈ cs, IsWordChar c) :
    runsOf cs = [.word cs] := by
  induction cs with
  | nil => exact absurd rfl hne
  | cons c cs ih =>
    rw [List.forall_mem_cons] at h
    have hblank : c ≠ ' ' := h.1.ne (by decide)
    have hfeed : c ≠ '\n' := h.1.ne (by decide)
    rw [runsOf_cons]
    unfold addToRuns
    rw [if_neg hblank, if_neg hfeed]
    -- the runs of the rest are one word, if there is a rest
    cases cs with
    | nil => rfl
    | cons d ds =>
      rw [ih (List.cons_ne_nil d ds) h.2]

theorem hasMarks_word {before : Option Char} {cs : List Char} (h : ∀ c ∈ cs, IsWordChar c) :
    hasMarks before cs = false := by
  induction cs generalizing before with
  | nil => rfl
  | cons c cs ih =>
    rw [List.forall_mem_cons] at h
    have hleading : c ∉ leadingMarks := by
      have hnone : leadingMarks.all (fun m => !decide (IsWordChar m)) = true := by decide
      intro hmem
      have hnot := List.all_eq_true.mp hnone c hmem
      rw [decide_eq_true h.1] at hnot
      cases hnot
    have hother : ∀ m : Char, ¬ IsWordChar m → decide (c = m) = false := fun m hm =>
      decide_eq_false (h.1.ne hm)
    have hmark : isMarkAt before c cs = false := by
      -- the marks beside the leading ones are compared one by one
      cases before <;>
        simp [isMarkAt, hleading, hother '?' (by decide), hother ':' (by decide),
          hother '-' (by decide), hother '#' (by decide)]
    rw [hasMarks, hmark, ih h.2]
    rfl

/-! ### The sense of a word -/

section Sense

open Plain

variable {c : Char} {cs : List Char} (hc : c.isAlpha = true) (hcs : ∀ d ∈ c :: cs, IsWordChar d)
include hcs

theorem dropSign_word : dropSign (c :: cs) = c :: cs := by
  have hsign : isSign c = false := by
    rw [isSign, decide_eq_false ((hcs c List.mem_cons_self).ne (by decide)),
      decide_eq_false ((hcs c List.mem_cons_self).ne (by decide))]
    rfl
  rw [dropSign, hsign]
  rfl

theorem colonParts_word : colonParts (c :: cs) = [c :: cs] := by
  induction cs generalizing c with
  | nil => rw [colonParts, if_neg ((hcs c List.mem_cons_self).ne (by decide))]; rfl
  | cons d ds ih =>
    rw [colonParts, if_neg ((hcs c List.mem_cons_self).ne (by decide)),
      ih (fun e he => hcs e (List.mem_cons_of_mem _ he))]

theorem isFloat_word : isFloat (c :: cs) = false := by
  -- there is no point in it
  have hpoint : (c :: cs).dropWhile (· ≠ '.') = [] := by
    rw [← List.append_nil (c :: cs), List.dropWhile_append_of_pos fun d hd =>
      decide_eq_true ((hcs d hd).ne (by decide))]
    rfl
  unfold isFloat
  simp only [dropSign_word hcs, hpoint]

include hc

theorem isInt_word : isInt (c :: cs) = false := by
  have hdigit := not_isDigit_of_isAlpha hc
  have hzero : c ≠ '0' := by
    rintro rfl
    exact absurd hdigit (by decide)
  have hpositive : isPositive (c :: cs) = false := by
    rw [isPositive, isFigures, hdigit]
    rfl
  have hsixty : isSexagesimal isPositive (c :: cs) = false := by
    rw [isSexagesimal, colonParts_word hcs]
  unfold isInt
  rw [dropSign_word hcs]
  -- a zero would lead to the other bases
  split
  · next heq => exact absurd (List.cons.inj heq).1 hzero
  · next heq => exact absurd (List.cons.inj heq).1 hzero
  · next heq => exact absurd (List.cons.inj heq).1 hzero
  · next heq => exact absurd (List.cons.inj heq).1 hzero
  · rw [hpositive, hsixty]
    rfl

omit hcs in
theorem isTime_word : isTime (c :: cs) = false := by
  -- A time starts with two digits, and a letter is no digit.
  have hyear : twoDigits? (c :: cs) = none := by
    cases cs with
    | nil => rfl
    | cons d ds =>
      rw [twoDigits?, not_isDigit_of_isAlpha hc]
      rfl
  unfold isTime time?
  rw [hyear]
  rfl

/-- **A word that is long enough stands for its own text.** -/
theorem sense_word (hlong : 6 ≤ (c :: cs).length) : sense (c :: cs) = .text := by
  have hfeed : dropLineFeed (c :: cs) = c :: cs := by
    refine if_neg fun hlast => ?_
    rw [Bool.and_eq_true, decide_eq_true_eq, decide_eq_true_eq] at hlast
    exact IsWordChar.not_mem hcs (by decide) (List.mem_of_getLast? hlast.1)
  -- the words with a sense of their own are shorter
  have hshort : ∀ words : List String, (∀ w ∈ words, w.length < 6) →
      words.contains (String.ofList (c :: cs)) = false := by
    intro words hwords
    rw [List.contains_eq_mem, decide_eq_false_iff_not]
    intro hmem
    have hlen := hwords _ hmem
    rw [String.length_ofList] at hlen
    omega
  have hother : ∀ w : String, w.length < 6 → String.ofList (c :: cs) ≠ w := by
    rintro w hw rfl
    rw [String.length_ofList] at hw
    omega
  rw [sense, hfeed]
  unfold senseOf
  simp only [hshort truthWords (by decide), isFloat_word hcs, isInt_word hc hcs,
    hother "<<" (by decide), hshort nullWords (by decide), isTime_word hc, hother "=" (by decide),
    hshort markWords (by decide), Bool.false_eq_true, if_false]

end Sense

end Yaml

/-- **Words are names.** -/
theorem Documents.Page.IsWord.isName {key : String} (h : IsWord key) : Yaml.IsName key := by
  have hchars : ∀ c ∈ key.toList, Yaml.IsWordChar c := h.letters
  obtain ⟨c, cs, hcs⟩ : ∃ c cs, key.toList = c :: cs := by
    have hstart := h.start
    cases hlist : key.toList with
    | nil =>
      rw [hlist] at hstart
      cases hstart
    | cons c cs => exact ⟨c, cs, rfl⟩
  have hletter : c.isAlpha = true := by
    have hstart := h.start
    rw [hcs] at hstart
    exact Option.some.inj hstart
  -- The words with a meaning of their own are all shorter than this.
  have hlong : 6 ≤ (c :: cs).length := by
    rw [← hcs, String.length_toList]
    exact h.long
  have hblank : ' ' ∉ c :: cs := Yaml.IsWordChar.not_mem (hcs ▸ hchars) (by decide)
  refine ⟨Yaml.fitsPlain_iff.mpr ?_, ?_, h.start, Nat.le_trans h.short (by decide)⟩
  · rw [hcs] at hchars ⊢
    refine ⟨fun d hd => (hchars d hd).isPlainAscii, fun hhead => ?_, fun hlast => ?_,
      List.cons_ne_nil _ _, ?_, Yaml.hasMarks_word hchars, Yaml.sense_word hletter hchars hlong⟩
    · exact hblank (List.mem_of_head? hhead)
    · exact hblank (List.mem_of_getLast? hlast)
    · -- the marks between documents are no letters
      have hstart : ∀ m : Char, ¬ Yaml.IsWordChar m → (m == c) = false := fun m hm =>
        beq_eq_false_iff_ne.mpr ((hchars c List.mem_cons_self).ne hm).symm
      rw [Yaml.startsLikeMark, List.isPrefixOf, List.isPrefixOf, hstart '-' (by decide),
        hstart '.' (by decide)]
      rfl
  · exact Yaml.runsOf_word (by rw [hcs]; exact List.cons_ne_nil _ _) hchars

end Lintel
