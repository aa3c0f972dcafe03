import Lintel.Proofs.Yaml.Plain

/-!
# What is written

Whatever characters a text has, it is written with printable ASCII and line feeds only
(`inked_writeText`), and in each style the first character begins content
(`startsContent_writeText`) and the last one is no line feed (`endsLine_writeText`).
-/

namespace Lintel

namespace Yaml

section Inked

variable {a b : List Char} {ch : Char}

theorem inked_nil : Inked [] :=
  fun _ h => absurd h List.not_mem_nil

theorem Inked.append (ha : Inked a) (hb : Inked b) : Inked (a ++ b) := by
  intro ch hch
  rcases List.mem_append.mp hch with h | h
  · exact ha ch h
  · exact hb ch h

theorem Inked.cons (hch : isPlainAscii ch = true) (hb : Inked b) : Inked (ch :: b) := by
  intro x hx
  rcases List.mem_cons.mp hx with rfl | hx
  · exact .inr hch
  · exact hb x hx

theorem inked_newLine (n : Nat) : Inked (newLine n) := by
  intro x hx
  rcases List.mem_cons.mp hx with rfl | hx
  · exact .inl rfl
  · rw [List.eq_of_mem_replicate hx]
    exact .inr (by decide)

end Inked

/-! ### Digits -/

theorem exists_digitChar {b n : Nat} (hb : 1 < b) {ch : Char} (h : ch ∈ Nat.toDigits b n) :
    ∃ d < b, ch = Nat.digitChar d := by
  -- Digits are put down by division, so the induction is on smaller numbers.
  induction n using Nat.strongRecOn with
  | _ n ih =>
    by_cases hn : n < b
    · rw [Nat.toDigits_of_lt_base hn] at h
      exact ⟨n, hn, List.mem_singleton.mp h⟩
    · rw [Nat.toDigits_of_base_le hb (by omega)] at h
      rcases List.mem_append.mp h with h | h
      · exact ih (n / b) (Nat.div_lt_self (by omega) hb) h
      · exact ⟨n % b, Nat.mod_lt n (by omega), List.mem_singleton.mp h⟩

theorem isPlainAscii_digitChar :
    ∀ d < 16, isPlainAscii (Nat.digitChar d) = true ∧
      isPlainAscii (Nat.digitChar d).toUpper = true := by
  decide

/-- The digits of an escape are printable, in capital letters, too. -/
theorem isPlainAscii_hexDigits (width n : Nat) :
    ∀ ch ∈ (hexDigits width n).map Char.toUpper, isPlainAscii ch = true := by
  intro ch hch
  obtain ⟨d, hd, rfl⟩ := List.mem_map.mp hch
  rw [hexDigits] at hd
  -- a zero in front or a digit of the number
  rcases List.mem_append.mp hd with hd | hd
  · rw [List.eq_of_mem_replicate hd]
    decide
  · obtain ⟨v, hv, rfl⟩ := exists_digitChar (by decide) hd
    exact (isPlainAscii_digitChar v hv).2

/-! ### Styles -/

theorem inked_writeRuns {split : Bool} {indent : Nat} {runs : List Run}
    (h : Inked (runChars runs)) (column : Nat) (inside : Bool) :
    Inked (writeRuns split indent column inside runs) := by
  induction runs generalizing column inside with
  | nil => exact inked_nil
  | cons r more ih =>
    have hr : Inked r.chars := fun ch hch => h ch (List.mem_append_left _ hch)
    have hmore := ih fun ch hch => h ch (List.mem_append_right _ hch)
    cases r with
    | word w => exact hr.append (hmore _ _)
    -- a space may be written as a line break
    | spaces n =>
      rw [writeRuns]
      split
      · exact (inked_newLine indent).append (hmore _ _)
      · exact hr.append (hmore _ _)
    | breaks n => exact (hr.append (inked_newLine indent)).append (hmore _ _)

theorem inked_doubleQuotes {cs : List Char} (h : Inked cs) : Inked (doubleQuotes cs) := by
  intro ch hch
  obtain ⟨c, hc, hch⟩ := List.mem_flatMap.mp hch
  split at hch
  · simp only [List.mem_cons, List.not_mem_nil, or_false, or_self] at hch
    rw [hch]
    exact .inr (by decide)
  · rw [List.mem_singleton.mp hch]
    exact h c hc

theorem inked_escape? {ch : Char} {e : List Char} (h : escape? ch = some e) : Inked e := by
  unfold escape? at h
  split at h
  · next l hl =>
    cases h
    -- an escape by a letter
    have hletter : isPlainAscii l = true := by
      unfold escapeLetter? at hl
      split at hl <;> cases hl <;> decide
    exact (inked_nil.cons hletter).cons (by decide)
  · split at h
    · cases h
    · -- an escape by a number, in hexadecimal digits
      obtain ⟨mark, width, hcode, hletter, hwidth⟩ := exists_escapeCode (toNat_lt ch)
      rw [hcode] at h
      cases h
      have hmark : isPlainAscii mark = true := by
        unfold codeWidth? at hwidth
        split at hwidth
        · decide
        · decide
        · decide
        · cases hwidth
      have hdigits : Inked ((hexDigits width ch.toNat).map Char.toUpper) :=
        fun d hd => .inr (isPlainAscii_hexDigits _ _ d hd)
      exact (hdigits.cons hmark).cons (by decide)

theorem inked_foldMark (indent : Nat) (next : Option Char) : Inked (foldMark indent next) := by
  unfold foldMark
  refine ((inked_newLine indent).append ?_).cons (by decide)
  split
  · exact inked_nil.cons (by decide)
  · exact inked_nil

theorem inked_writeDouble {split : Bool} {indent : Nat} (cs : List Char) (column : Nat)
    (inside fresh : Bool) : Inked (writeDouble split indent column inside fresh cs) := by
  induction cs generalizing column inside fresh with
  | nil => exact inked_nil
  | cons ch cs ih =>
    unfold writeDouble
    simp only
    split
    · next e he =>
      split
      · exact ((inked_escape? he).append (inked_foldMark _ _)).append (ih _ _ _)
      · exact (inked_escape? he).append (ih _ _ _)
    · next hnone =>
      -- a character without an escape is plain ASCII
      have hch : isPlainAscii ch = true := by
        unfold escape? at hnone
        split at hnone
        · cases hnone
        · split at hnone
          · next hplain => exact hplain
          · obtain ⟨mark, width, hcode, -⟩ := exists_escapeCode (toNat_lt ch)
            rw [hcode] at hnone
            cases hnone
      split
      · exact (inked_foldMark _ _).append ((ih _ _ _).cons hch)
      · exact (ih _ _ _).cons hch

/-- **The styles.** A text is written without quotes or in quotes of either kind. -/
theorem writeText_cases (isKey : Bool) (indent column : Nat) (s : String) :
    (FitsPlain s.toList ∧ (writeText isKey indent column s).toList
      = writeRuns (!isKey) indent column false (runsOf s.toList)) ∨
    (fitsPlain s.toList = false ∧ fitsSingle s.toList = true ∧
      (writeText isKey indent column s).toList = '\''
        :: (writeRuns (!isKey) indent (column + 1) false (runsOf (doubleQuotes s.toList))
          ++ ['\''])) ∨
    (fitsPlain s.toList = false ∧ (writeText isKey indent column s).toList
      = '"' :: (writeDouble (!isKey) indent (column + 1) false true s.toList ++ ['"'])) := by
  rw [writeText, String.toList_ofList]
  unfold styleOf
  -- in the order in which the styles are tried
  by_cases hplain : fitsPlain s.toList = true
  · rw [if_pos hplain]
    exact .inl ⟨fitsPlain_iff.mp hplain, rfl⟩
  · rw [if_neg hplain]
    have hnot := Bool.eq_false_iff.mpr hplain
    by_cases hsingle : (fitsSingle s.toList && !(isKey && s.toList.contains '\n')) = true
    · rw [if_pos hsingle]
      rw [Bool.and_eq_true] at hsingle
      exact .inr (.inl ⟨hnot, hsingle.1, rfl⟩)
    · rw [if_neg hsingle]
      exact .inr (.inr ⟨hnot, rfl⟩)

/-- **A text is written with printable ASCII and line feeds.** -/
theorem inked_writeText (isKey : Bool) (indent column : Nat) (s : String) :
    Inked (writeText isKey indent column s).toList := by
  -- Plain, in single quotes or in double quotes.
  rcases writeText_cases isKey indent column s with ⟨hfits, h⟩ | ⟨-, hfits, h⟩ | ⟨-, h⟩
  · rw [h]
    refine inked_writeRuns ?_ _ _
    rw [runChars_runsOf]
    exact fun ch hch => .inr (hfits.plain ch hch)
  · rw [h]
    refine ((inked_writeRuns ?_ _ _).append (inked_nil.cons (by decide))).cons (by decide)
    rw [runChars_runsOf]
    exact inked_doubleQuotes (fitsSingle_iff.mp hfits).1
  · rw [h]
    exact ((inked_writeDouble _ _ _ _).append (inked_nil.cons (by decide))).cons (by decide)

/-- **What is written begins content.** -/
theorem startsContent_writeText (isKey : Bool) (indent column : Nat) (s : String)
    (after : List Char) : StartsContent ((writeText isKey indent column s).toList ++ after) := by
  intro ch hch
  -- the first character is that of a word or a quote
  rcases writeText_cases isKey indent column s with ⟨hfits, h⟩ | ⟨-, -, h⟩ | ⟨-, h⟩
  · obtain ⟨first, w, more, hruns, hw, -⟩ := hfits.exists_first
    obtain ⟨hplain, hspace⟩ := hw.plain first List.mem_cons_self
    rw [h, hruns] at hch
    cases hch
    refine ⟨hspace, fun heq => hw.start ?_, isBreak_of_isPlainAscii hplain⟩
    rw [heq]
    rfl
  · rw [h] at hch
    cases hch
    decide
  · rw [h] at hch
    cases hch
    decide

/-- Characters that end with something other than a line feed. -/
def EndsLine (cs : List Char) : Prop := ∃ ch, cs.getLast? = some ch ∧ ch ≠ '\n'

theorem EndsLine.append {b : List Char} (hb : EndsLine b) (a : List Char) : EndsLine (a ++ b) := by
  obtain ⟨ch, hch, hne⟩ := hb
  exact ⟨ch, by rw [List.getLast?_append, hch, Option.some_or], hne⟩

theorem IsPlainRuns.endsLine {split : Bool} {indent : Nat} {runs : List Run} (h : IsPlainRuns runs)
    (column : Nat) (inside : Bool) : EndsLine (writeRuns split indent column inside runs) := by
  fun_induction IsPlainRuns runs generalizing column inside with
  -- the last word ends the line, and no word ends with a space
  | case1 w =>
    obtain ⟨init, ch, hw⟩ : ∃ init ch, w = init ++ [ch] :=
      ⟨_, _, (List.dropLast_concat_getLast h.ne_nil).symm⟩
    have hplain := (h.plain ch (by rw [hw]; exact List.mem_append_right _ List.mem_cons_self)).1
    rw [writeRuns, writeRuns, List.append_nil, hw]
    refine EndsLine.append ⟨ch, rfl, ?_⟩ init
    rintro rfl
    exact absurd hplain (by decide)
  | case2 w n more ih =>
    obtain ⟨-, -, hmore⟩ := h
    rw [writeRuns, writeRuns]
    refine EndsLine.append ?_ w
    split
    · exact (ih hmore _ _).append _
    · exact (ih hmore _ _).append _
  | case3 => exact h.elim

/-- **What is written ends within a line.** -/
theorem endsLine_writeText (isKey : Bool) (indent column : Nat) (s : String) :
    EndsLine (writeText isKey indent column s).toList := by
  rcases writeText_cases isKey indent column s with ⟨hfits, h⟩ | ⟨-, -, h⟩ | ⟨-, h⟩
  · rw [h]
    exact hfits.isPlainRuns.endsLine _ _
  -- in quotes the last character is the closing one
  · rw [h, ← List.cons_append]
    exact EndsLine.append ⟨_, rfl, by decide⟩ _
  · rw [h, ← List.cons_append]
    exact EndsLine.append ⟨_, rfl, by decide⟩ _

end Yaml

end Lintel
