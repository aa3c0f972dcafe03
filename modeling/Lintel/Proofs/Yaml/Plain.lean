import Lintel.Proofs.Yaml.Runs

/-!
# Reading plain scalars back

A text that is written plainly consists of words with spaces between them, and no word begins with a
hash or ends with a colon (`IsPlainRuns`). So the reader comes to the end of each word and goes on
to the next one, whether spaces or a fold stand between them.

What ends the scalar is a gap before a column to the left of its lines. The reader has gone into
the gap by then, past a line break at least, but not out of it (`plainGap_gap`).
-/

namespace Lintel

namespace Yaml

structure IsPlainWord (w : List Char) : Prop where
  ne_nil : w ≠ []
  plain : ∀ c ∈ w, isPlainAscii c = true ∧ c ≠ ' '
  start : w.head? ≠ some '#'
  stop : w.getLast? ≠ some ':'

/-- Words with spaces between them. -/
def IsPlainRuns : List Run → Prop
  | [.word w] => IsPlainWord w
  | .word w :: .spaces n :: more => IsPlainWord w ∧ 0 < n ∧ IsPlainRuns more
  | _ => False

/-! ### The end of a scalar -/

section Gap

variable {lines : List (List Char)} {indent : Nat} {rest : List Char}

/-- The next word or the end is reached past an indentation. -/
theorem plainBreaks_indent (hspace : rest.head? ≠ some ' ')
    (hbreak : ∀ ch, rest.head? = some ch → isBreak ch = false) {c : Cursor}
    (hc : c.rest = List.replicate indent ' ' ++ rest) {fuel : Nat} (hfuel : indent < fuel) :
    plainBreaks fuel c = (some [], c.skip indent) := by
  induction indent generalizing c fuel with
  | zero =>
    obtain ⟨fuel, rfl⟩ : ∃ n, fuel = n + 1 := ⟨fuel - 1, by omega⟩
    have hrest : c.rest = rest := hc
    -- the indentation is over, and what comes next is neither a space nor a line break
    have hpeek : c.peek ≠ some ' ' := by
      rw [Cursor.peek, hrest]
      exact hspace
    have hnone : c.lineBreak? = none := by
      refine Cursor.lineBreak?_of_not ?_
      rw [hrest]
      exact hbreak
    rw [plainBreaks, if_neg hpeek, hnone]
    rfl
  | succ indent ih =>
    obtain ⟨fuel, rfl⟩ : ∃ n, fuel = n + 1 := ⟨fuel - 1, by omega⟩
    -- one space of the indentation is passed
    have hpeek : c.peek = some ' ' := Cursor.peek_cons hc
    have hnext : c.next.rest = List.replicate indent ' ' ++ rest := by
      rw [Cursor.rest_next, hc]
      rfl
    rw [plainBreaks, if_pos hpeek, ih hnext (by omega)]
    rfl

/-- No mark between documents comes after the lines of a gap. -/
def NoMark (indent : Nat) (rest : List Char) : Prop :=
  indent = 0 → ∀ ch, rest.head? = some ch → ch ≠ '-' ∧ ch ≠ '.'

theorem atAnyMark_gap (hlines : ∀ line ∈ lines, IsRemark line) (hmark : NoMark indent rest)
    {c : Cursor} (hc : c.rest = gapChars lines indent ++ rest) : c.atAnyMark = false := by
  refine atAnyMark_of_head? fun ch hch => ?_
  rw [hc] at hch
  cases lines with
  | nil =>
    -- without lines and indentation, what comes after the gap is in the first column
    cases indent with
    | zero => exact hmark rfl ch hch
    | succ indent =>
      cases hch
      decide
  | cons line lines =>
    rw [gapChars_cons] at hch
    cases line with
    | nil =>
      cases hch
      decide
    | cons a line =>
      -- a line that is not empty begins with the mark of a remark
      have hstart := (hlines _ List.mem_cons_self).start.resolve_left (List.cons_ne_nil _ _)
      cases hstart
      cases hch
      decide

theorem plainBreaks_spaces (hrest : StartsContent rest) {c : Cursor}
    (hc : c.rest = gapChars [] indent ++ rest) (hcolumn : c.column = 0) {fuel : Nat}
    (hfuel : (gapChars [] indent).length < fuel) :
    ∃ c', plainBreaks fuel c = (some [], c') ∧ c.line ≤ c'.line ∧ c'.column ≤ indent ∧
      c'.rest.length ≤ c.rest.length ∧ c'.LeadsTo [] indent rest := by
  have hc' : c.rest = List.replicate indent ' ' ++ rest := hc
  have hfuel' : indent < fuel := by
    rw [gapChars] at hfuel
    simpa using hfuel
  -- no line is empty, so there is nothing but the indentation
  have hskip := Cursor.skip_flat hc' fun ch hch => by
    rw [List.eq_of_mem_replicate hch]
    decide
  rw [List.length_replicate] at hskip
  refine ⟨c.skip indent, plainBreaks_indent (fun h => (hrest _ h).1 rfl)
    (fun ch hch => (hrest ch hch).2.2) hc' hfuel', c.line_le_skip _, ?_, ?_, ?_⟩
  · rw [hskip]
    simp only
    omega
  · rw [Cursor.rest_skip, List.length_drop]
    omega
  · rw [hskip]
    refine ⟨fun line hline => absurd hline List.not_mem_nil, hrest, 0, rfl, ?_⟩
    simp only [if_true]
    omega

theorem plainBreaks_remark {c : Cursor} (hhead : c.peek = some '#') (fuel : Nat) :
    plainBreaks (fuel + 1) c = (some [], c) := by
  have hspace : c.peek ≠ some ' ' := by
    rw [hhead]
    exact fun h => absurd (Option.some.inj h) (by decide)
  have hnone : c.lineBreak? = none :=
    Cursor.lineBreak?_of_not (Cursor.forall_head? hhead (by decide))
  rw [plainBreaks, if_neg hspace, hnone]

/-- The line breaks of a gap after the first. The cursor stays in the gap. -/
theorem plainBreaks_gap (hlines : ∀ line ∈ lines, IsRemark line) (hrest : StartsContent rest)
    (hmark : NoMark indent rest) {c : Cursor} (hc : c.rest = gapChars lines indent ++ rest)
    (hcolumn : c.column = 0) {fuel : Nat} (hfuel : (gapChars lines indent).length < fuel) :
    ∃ bs lines' c', plainBreaks fuel c = (some bs, c') ∧ c.line ≤ c'.line ∧ c'.column ≤ indent ∧
      c'.rest.length ≤ c.rest.length ∧ c'.LeadsTo lines' indent rest := by
  induction lines generalizing c fuel with
  | nil => exact ⟨[], [], plainBreaks_spaces hrest hc hcolumn hfuel⟩
  | cons line lines ih =>
    obtain ⟨fuel, rfl⟩ : ∃ n, fuel = n + 1 := ⟨fuel - 1, by omega⟩
    have hlines' : ∀ line ∈ lines, IsRemark line :=
      fun x hx => hlines x (List.mem_cons_of_mem _ hx)
    cases line with
    | nil =>
      -- an empty line is passed
      rw [gapChars_cons] at hc hfuel
      have hnext := Cursor.next_lineFeed hc
      have hpeek : c.peek ≠ some ' ' := by
        rw [Cursor.peek, hc]
        exact fun h => absurd (Option.some.inj h) (by decide)
      have hfuel' : (gapChars lines indent).length < fuel := by
        simp only [List.nil_append, List.length_cons] at hfuel
        omega
      obtain ⟨bs, lines', c', hread, hline, hcolumn', hlen, hleads⟩ := ih hlines' (c := c.next)
        (by rw [hnext]; rfl) (by rw [hnext]) hfuel'
      have hnot := atAnyMark_gap hlines' hmark (c := c.next) (by rw [hnext]; rfl)
      refine ⟨'\n' :: bs, lines', c', ?_, Nat.le_trans c.line_le_next hline, hcolumn', ?_, hleads⟩
      · rw [plainBreaks, if_neg hpeek, Cursor.lineBreak?_lineFeed hc]
        simp only [hnot, hread]
        rfl
      · rw [Cursor.rest_next, List.length_tail] at hlen
        omega
    | cons a line =>
      -- a remark ends the scalar
      have hstart := (hlines _ List.mem_cons_self).start.resolve_left (List.cons_ne_nil _ _)
      cases hstart
      have hpeek : c.peek = some '#' := by
        rw [Cursor.peek, hc, gapChars_cons]
        rfl
      refine ⟨[], _, c, plainBreaks_remark hpeek fuel, Nat.le_refl _, by omega, Nat.le_refl _,
        hlines, hrest, indent, hc, ?_⟩
      rw [if_neg (List.cons_ne_nil _ _)]

/-- **A gap ends a plain scalar** if content comes after it in a column to the left. -/
theorem plainGap_gap (hlines : ∀ line ∈ lines, IsRemark line) (hrest : StartsContent rest)
    (hmark : NoMark indent rest) {c : Cursor}
    (hc : c.rest = '\n' :: (gapChars lines indent ++ rest)) {fuel : Nat}
    (hfuel : (gapChars lines indent).length < fuel) :
    ∃ gap lines' c', plainGap fuel c = (gap, true, c') ∧ c.line < c'.line ∧ c'.column ≤ indent ∧
      c'.rest.length < c.rest.length ∧ c'.LeadsTo lines' indent rest := by
  have hnext := Cursor.next_lineFeed hc
  have htake : c.takeWhile (· = ' ') = ([], c) :=
    Cursor.takeWhile_none (Cursor.forall_head? (Cursor.peek_cons hc) rfl)
  -- nor does the document end in the lines of the gap
  have hnot := atAnyMark_gap hlines hmark (c := c.next) (by rw [hnext])
  obtain ⟨bs, lines', c', hread, hline, hcolumn, hlen, hleads⟩ := plainBreaks_gap hlines hrest hmark
    (c := c.next) (by rw [hnext]) (by rw [hnext]) hfuel
  refine ⟨foldBreaks '\n' bs, lines', c', ?_, ?_, hcolumn, ?_, hleads⟩
  · rw [plainGap, htake]
    simp only [Cursor.lineBreak?_lineFeed hc, hnot, hread]
    rfl
  · rw [hnext] at hline
    exact hline
  · rw [hnext] at hlen
    rw [hc]
    exact Nat.lt_succ_of_le hlen

end Gap

/-! ### Words -/

theorem isGap_of_isPlainAscii {ch : Char} (h : isPlainAscii ch = true) (hspace : ch ≠ ' ') :
    isGap (some ch) = false := by
  have htab : ch ≠ '\t' := by
    rintro rfl
    exact absurd h (by decide)
  rw [isGap, isBreak_of_isPlainAscii h, isSpace, decide_eq_false hspace, decide_eq_false htab]
  rfl

/-- What may come after a word: a gap, or a colon with a gap after it. -/
def EndsPlainWord (after : List Char) : Prop :=
  isGap after.head? = true ∨ ∃ more, after = ':' :: more ∧ isGap more.head? = true

/-- **A word is read** up to its end. -/
theorem plainWord_append {w after : List Char} (hw : ∀ c ∈ w, isPlainAscii c = true ∧ c ≠ ' ')
    (hlast : w.getLast? ≠ some ':') (hafter : EndsPlainWord after) :
    plainWord false (w ++ after) = w := by
  induction w with
  | nil =>
    rw [List.nil_append]
    rcases hafter with hgap | ⟨more, rfl, hgap⟩
    · cases after with
      | nil => rfl
      | cons c after =>
        have hgap' : isGap (some c) = true := hgap
        rw [plainWord, hgap']
        rfl
    · rw [plainWord, endsBeforeColon, hgap]
      rfl
  | cons c w ih =>
    obtain ⟨hplain, hspace⟩ := hw c List.mem_cons_self
    have hw' : ∀ c ∈ w, isPlainAscii c = true ∧ c ≠ ' ' :=
      fun d hd => hw d (List.mem_cons_of_mem _ hd)
    -- a colon inside is not before a gap
    have hcolon : (decide (c = ':') && endsBeforeColon false (w ++ after).head?) = false := by
      cases w with
      | nil =>
        have hne : c ≠ ':' := fun h => hlast (by rw [h]; rfl)
        rw [decide_eq_false hne]
        rfl
      | cons d w =>
        obtain ⟨hplain', hspace'⟩ := hw' d List.mem_cons_self
        have hnext : endsBeforeColon false (some d) = false := by
          rw [endsBeforeColon, isGap_of_isPlainAscii hplain' hspace']
          rfl
        rw [List.cons_append, List.head?_cons, hnext, Bool.and_false]
    -- The rest of the word ends as the word does.
    have hlast' : w.getLast? ≠ some ':' := by
      cases w with
      | nil => exact nofun
      | cons d w => exact hlast
    rw [List.cons_append, plainWord, isGap_of_isPlainAscii hplain hspace, hcolon, ih hw' hlast']
    rfl

namespace IsPlainWord

variable {w after : List Char}

theorem flat (h : IsPlainWord w) : ∀ c ∈ w, isFlat c = true :=
  fun c hc => isFlat_of_isPlainAscii (h.plain c hc).1

theorem head (h : IsPlainWord w) :
    ∃ ch, w.head? = some ch ∧ isGap (some ch) = false ∧ ch ≠ '#' := by
  cases w with
  | nil => exact absurd rfl h.ne_nil
  | cons ch w =>
    obtain ⟨hplain, hspace⟩ := h.plain ch List.mem_cons_self
    exact ⟨ch, rfl, isGap_of_isPlainAscii hplain hspace, fun heq => h.start (by rw [heq]; rfl)⟩

theorem head?_append (h : IsPlainWord w) : (w ++ after).head? = w.head? := by
  cases w with
  | nil => exact absurd rfl h.ne_nil
  | cons ch w => rfl

theorem next (h : IsPlainWord w) (hafter : EndsPlainWord after) {c : Cursor}
    (hc : c.rest = w ++ after) :
    (if c.peek = some '#' then [] else plainWord false c.rest) = w := by
  obtain ⟨ch, hhead, -, hhash⟩ := h.head
  have hpeek : c.peek ≠ some '#' := by
    rw [Cursor.peek, hc, h.head?_append, hhead]
    exact fun heq => hhash (Option.some.inj heq)
  rw [if_neg hpeek, hc, plainWord_append h.plain h.stop hafter]

end IsPlainWord

/-! ### Between words -/

section Between

variable {w more : List Char} {c : Cursor} {fuel : Nat}

theorem plainGap_spaces (hw : IsPlainWord w) {n : Nat}
    (hc : c.rest = List.replicate n ' ' ++ (w ++ more)) :
    plainGap fuel c = (List.replicate n ' ', false, c.skip n) := by
  obtain ⟨ch, hhead, hgap, -⟩ := hw.head
  have hhead' : (w ++ more).head? = some ch := hw.head?_append.trans hhead
  rw [isGap, Bool.or_eq_false_iff] at hgap
  have hspace : decide (ch = ' ') = false :=
    decide_eq_false fun heq => absurd hgap.1 (by rw [heq]; decide)
  have htake : c.takeWhile (· = ' ') = (List.replicate n ' ', c.skip n) :=
    Cursor.takeWhile_replicate hc rfl (Cursor.forall_head? hhead' hspace)
  have hrest : (c.skip n).rest.head? = some ch := by
    rw [Cursor.rest_skip, hc, List.drop_left' List.length_replicate, hhead']
  -- the word begins behind the spaces, on the same line
  have hnone : (c.skip n).lineBreak? = none :=
    Cursor.lineBreak?_of_not (Cursor.forall_head? hrest hgap.2)
  rw [plainGap, htake]
  simp only [hnone]

theorem plainGap_fold (hw : IsPlainWord w) {indent : Nat} (hindent : 0 < indent)
    (hc : c.rest = newLine indent ++ (w ++ more)) (hfuel : indent < fuel) :
    plainGap fuel c = ([' '], true, c.next.skip indent) := by
  obtain ⟨ch, hhead, hgap, -⟩ := hw.head
  have hhead' : (w ++ more).head? = some ch := hw.head?_append.trans hhead
  rw [isGap, Bool.or_eq_false_iff] at hgap
  have hc' : c.rest = '\n' :: (List.replicate indent ' ' ++ (w ++ more)) := hc
  have hnext := Cursor.next_lineFeed hc'
  have htake : c.takeWhile (· = ' ') = ([], c) :=
    Cursor.takeWhile_none (Cursor.forall_head? (Cursor.peek_cons hc') rfl)
  have hrest : c.next.rest = gapChars [] indent ++ (w ++ more) := by
    rw [hnext]
    rfl
  -- the indentation keeps the word out of the first column
  have hnot : c.next.atAnyMark = false :=
    atAnyMark_gap (fun line hline => absurd hline List.not_mem_nil) (fun h => by omega) hrest
  have hread : plainBreaks fuel c.next = (some [], c.next.skip indent) := by
    refine plainBreaks_indent (fun h => ?_) (Cursor.forall_head? hhead' hgap.2) hrest hfuel
    rw [hhead'] at h
    cases h
    exact absurd hgap.1 (by decide)
  rw [plainGap, htake]
  simp only [Cursor.lineBreak?_lineFeed hc', hnot, hread]
  rfl

end Between

/-! ### Scalars -/

theorem IsPlainRuns.exists_word {runs : List Run} (h : IsPlainRuns runs) :
    ∃ w more, runs = .word w :: more ∧ IsPlainWord w := by
  unfold IsPlainRuns at h
  split at h
  · next w => exact ⟨w, [], rfl, h⟩
  · next w n more => exact ⟨w, _, rfl, h.1⟩
  · cases h

def EndsPlain (least : Int) (after : List Char) (P : Cursor → Prop) : Prop :=
  isGap after.head? = true ∧
    ∀ (c : Cursor) (fuel : Nat), c.rest = after → after.length < fuel →
      ∃ gap c', plainGap fuel c = (gap, true, c') ∧ c.line < c'.line ∧ (c'.column : Int) < least ∧
        P c'

section Scalar

variable {w after : List Char} {c c' : Cursor} {fuel : Nat} {least : Int} {broken broken' : Bool}
  {gap gap' : List Char}

theorem plainRest_last (hw : IsPlainWord w) (hafter : EndsPlainWord after)
    (hc : c.rest = w ++ after) (hgap : plainGap fuel (c.skip w.length) = (gap', broken', c'))
    (hend : gap' = [] ∨ (c'.column : Int) < least) :
    plainRest false least (fuel + 1) broken gap c = (gap ++ w, broken', c') := by
  have hne : w.isEmpty = false := List.isEmpty_eq_false_iff.mpr hw.ne_nil
  rw [plainRest, hw.next hafter hc, hne]
  simp only [hgap, Bool.false_eq_true, if_false]
  rcases hend with rfl | hleft
  · rfl
  · rw [if_pos (by simp [hleft])]

theorem plainRest_word (hw : IsPlainWord w) (hafter : EndsPlainWord after)
    (hc : c.rest = w ++ after) (hgap : plainGap fuel (c.skip w.length) = (gap', broken', c'))
    (hne : gap' ≠ [])
    (hhash : c'.peek ≠ some '#') (hcolumn : least ≤ c'.column) :
    plainRest false least (fuel + 1) broken gap c
      = ((gap ++ w) ++ (plainRest false least fuel broken' gap' c').1,
        (plainRest false least fuel broken' gap' c').2) := by
  have hword : w.isEmpty = false := List.isEmpty_eq_false_iff.mpr hw.ne_nil
  have hgap' : gap'.isEmpty = false := List.isEmpty_eq_false_iff.mpr hne
  rw [plainRest, hw.next hafter hc, hword]
  simp only [hgap, Bool.false_eq_true, if_false]
  rw [if_neg (by simp [hgap', hhash]; omega)]

end Scalar

/-- The gap between two words, be it spaces or a fold: the next word is read from its end. -/
theorem exists_plainGap {split : Bool} {indent n : Nat} (hindent : 0 < indent) (hn : 0 < n)
    {least : Int} (hleast : least ≤ indent) {more : List Run} (hmore : IsPlainRuns more)
    {after : List Char} {c : Cursor} {column : Nat}
    (hc : c.rest = writeRuns split indent column true (.spaces n :: more) ++ after)
    (hcolumn : least ≤ c.column) {fuel : Nat} (hfuel : c.rest.length ≤ fuel) :
    ∃ broken c' column', plainGap fuel c = (List.replicate n ' ', broken, c') ∧
      c'.rest = writeRuns split indent column' true more ++ after ∧ least ≤ c'.column ∧
      c.line ≤ c'.line ∧ c'.peek ≠ some '#' ∧ c'.rest.length < c.rest.length := by
  obtain ⟨w, runs, rfl, hw⟩ := hmore.exists_word
  obtain ⟨ch, hhead, -, hhash⟩ := hw.head
  have hpeek : ∀ (c : Cursor) column,
      c.rest = w ++ (writeRuns split indent column true runs ++ after) → c.peek ≠ some '#' := by
    intro c column hc
    rw [Cursor.peek, hc, hw.head?_append, hhead]
    exact fun heq => hhash (Option.some.inj heq)
  rw [writeRuns] at hc
  split at hc
  · next hfold =>
    -- the line is folded at the space
    obtain rfl : n = 1 := by
      simp only [Bool.and_eq_true, decide_eq_true_eq] at hfold
      exact hfold.1.1.1.1
    rw [writeRuns, List.append_assoc, List.append_assoc] at hc
    have hnext := Cursor.next_lineFeed (c := c) (b := List.replicate indent ' ' ++ (w ++ _)) hc
    have hblanks : c.next.rest = List.replicate indent ' '
        ++ (w ++ (writeRuns split indent (indent + w.length) true runs ++ after)) := by rw [hnext]
    have hskip := Cursor.skip_flat hblanks fun ch hch => by
      rw [List.eq_of_mem_replicate hch]
      decide
    rw [List.length_replicate, hnext] at hskip
    have hlen : indent < fuel := by
      rw [hc, newLine, List.length_append, List.length_cons, List.length_replicate] at hfuel
      omega
    refine ⟨true, c.next.skip indent, indent, plainGap_fold hw hindent hc hlen, ?_, ?_, ?_, ?_, ?_⟩
    · rw [hnext, hskip, writeRuns, List.append_assoc]
    · rw [hnext, hskip]
      simp only
      omega
    · exact Nat.le_trans c.line_le_next (Cursor.line_le_skip _ _)
    · exact hpeek _ (indent + w.length) (by rw [hnext, hskip])
    · rw [hnext, hskip, hc, newLine]
      simp only [List.length_append, List.length_cons, List.length_replicate]
      omega
  · -- The spaces stand on the line as they are.
    rw [writeRuns, List.append_assoc, List.append_assoc] at hc
    have hskip := Cursor.skip_flat hc fun ch hch => by
      rw [List.eq_of_mem_replicate hch]
      decide
    rw [List.length_replicate] at hskip
    refine ⟨false, c.skip n, column + n, plainGap_spaces hw hc, ?_, ?_, c.line_le_skip n, ?_, ?_⟩
    · rw [hskip, writeRuns, List.append_assoc]
    · rw [hskip]
      simp only
      omega
    · exact hpeek _ (column + n + w.length) (by rw [hskip])
    · rw [hskip, hc]
      simp only [List.length_append, List.length_replicate]
      omega

/-- **A plain scalar is read back.** -/
theorem plainRest_writeRuns {split : Bool} {indent : Nat} (hindent : 0 < indent) {least : Int}
    (hleast : least ≤ indent) {after : List Char} {P : Cursor → Prop}
    (hafter : EndsPlain least after P) {runs : List Run} (h : IsPlainRuns runs) {c : Cursor}
    {column : Nat} {inside : Bool}
    (hc : c.rest = writeRuns split indent column inside runs ++ after)
    (hcolumn : least ≤ c.column) {fuel : Nat} (hfuel : c.rest.length < fuel) (broken : Bool)
    (gap : List Char) :
    ∃ c', plainRest false least fuel broken gap c = (gap ++ runChars runs, true, c') ∧
      c.line < c'.line ∧ P c' := by
  induction runs using IsPlainRuns.induct generalizing c column inside fuel broken gap with
  -- The last word, behind which the scalar ends.
  | case1 w =>
    obtain ⟨fuel, rfl⟩ : ∃ n, fuel = n + 1 := ⟨fuel - 1, by omega⟩
    have hw : IsPlainWord w := h
    have hc' : c.rest = w ++ after := by
      rw [hc, writeRuns, writeRuns, List.append_nil]
    have hskip := Cursor.skip_flat hc' hw.flat
    have hlen := List.length_pos_iff.mpr hw.ne_nil
    rw [hc', List.length_append] at hfuel
    obtain ⟨gap', c', hgap, hline, hleft, hP⟩ := hafter.2 (c.skip w.length) fuel (by rw [hskip])
      (by omega)
    rw [hskip] at hline
    refine ⟨c', ?_, hline, hP⟩
    rw [plainRest_last hw (.inl hafter.1) hc' hgap (.inr hleft), runChars_cons]
    simp [Run.chars, runChars]
  -- A word and a gap, behind which the scalar goes on.
  | case2 w n more ih =>
    obtain ⟨fuel, rfl⟩ : ∃ n, fuel = n + 1 := ⟨fuel - 1, by omega⟩
    obtain ⟨hw, hn, hmore⟩ := h
    have hlen := List.length_pos_iff.mpr hw.ne_nil
    rw [writeRuns, List.append_assoc] at hc
    have hskip := Cursor.skip_flat hc hw.flat
    rw [hc, List.length_append] at hfuel
    have hfuel₁ : (c.skip w.length).rest.length ≤ fuel := by
      rw [hskip]
      simp only
      omega
    obtain ⟨broken', c₁, column', hgap, hrest, hcolumn', hline₁, hhash, hlen₁⟩ :=
      exists_plainGap hindent hn hleast hmore (by rw [hskip]) (by rw [hskip]; simp only; omega)
        hfuel₁
    have hfuel₂ : c₁.rest.length < fuel := Nat.lt_of_lt_of_le hlen₁ hfuel₁
    rw [hskip] at hline₁ hlen₁
    obtain ⟨c', hread, hline, hP⟩ := ih hmore hrest hcolumn' hfuel₂ broken' (List.replicate n ' ')
    have hne : List.replicate n ' ' ≠ [] := by
      rw [Ne, List.replicate_eq_nil_iff]
      omega
    refine ⟨c', ?_, Nat.lt_of_le_of_lt hline₁ hline, hP⟩
    rw [plainRest_word hw ?_ hc hgap hne hhash hcolumn', hread]
    · simp [runChars_cons, Run.chars]
    · -- the word ends before a space or a line break
      left
      rw [writeRuns]
      split
      · rfl
      · obtain ⟨n, rfl⟩ : ∃ m, n = m + 1 := ⟨n - 1, by omega⟩
        rfl
  | case3 runs h1 h2 =>
    obtain ⟨w, more, rfl, -⟩ := h.exists_word
    cases more with
    | nil => exact absurd rfl (h1 w)
    | cons r more =>
      cases r with
      | spaces n => exact absurd rfl (h2 w n more)
      | word w' => exact h.elim
      | breaks n => exact h.elim

theorem endsPlain_gap {lines : List (List Char)} {n : Nat} {rest : List Char} {least : Int}
    (hlines : ∀ line ∈ lines, IsRemark line) (hrest : StartsContent rest) (hmark : NoMark n rest)
    (hn : n < least) :
    EndsPlain least ('\n' :: (gapChars lines n ++ rest)) fun c =>
      c.rest.length < ('\n' :: (gapChars lines n ++ rest)).length ∧
        ∃ lines', c.LeadsTo lines' n rest := by
  refine ⟨rfl, fun c fuel hc hfuel => ?_⟩
  have hfuel' : (gapChars lines n).length < fuel := by
    rw [List.length_cons, List.length_append] at hfuel
    omega
  -- The gap is skipped up to content at a column left of the scalar, which ends it.
  obtain ⟨gap, lines', c', hgap, hline, hcolumn, hlen, hleads⟩ :=
    plainGap_gap hlines hrest hmark hc hfuel'
  rw [hc] at hlen
  exact ⟨gap, c', hgap, hline, by omega, hlen, lines', hleads⟩

/-! ### Keys -/

/-- A key that is written in front of its colon: a single word that is neither a mark nor long. -/
structure IsKey (key : List Char) : Prop where
  word : IsPlainWord key
  letter : ∀ ch, key.head? = some ch → leadingMarks.contains ch = false ∧
    ch ≠ '?' ∧ ch ≠ ':' ∧ ch ≠ '-' ∧ ch ≠ '.'
  short : key.length ≤ keyReach

theorem readPlain_key {key after : List Char} (hkey : IsKey key) {least : Int} {c : Cursor}
    (hc : c.rest = key ++ ':' :: '\n' :: after) :
    readPlain false least c
      = (.scalar (String.ofList key) true, false, c.skip key.length) := by
  have hskip := Cursor.skip_flat hc hkey.word.flat
  have hgap : plainGap c.rest.length (c.skip key.length) = ([], false, c.skip key.length) := by
    -- behind the key the reader looks for a gap, and finds the colon
    have hcolon : (c.skip key.length).rest.head? = some ':' := by
      rw [hskip]
      rfl
    have htake : (c.skip key.length).takeWhile (· = ' ') = ([], c.skip key.length) :=
      Cursor.takeWhile_none (Cursor.forall_head? hcolon rfl)
    have hnone : (c.skip key.length).lineBreak? = none :=
      Cursor.lineBreak?_of_not (Cursor.forall_head? hcolon rfl)
    rw [plainGap, htake]
    simp only [hnone]
  rw [readPlain, plainRest_last hkey.word (.inr ⟨_, rfl, rfl⟩) hc hgap (.inl rfl)]
  rfl

/-! ### What fits -/

theorem hasMarks_append {before : Option Char} {a b : List Char}
    (h : hasMarks before (a ++ b) = false) : hasMarks (a.getLast?.or before) b = false := by
  induction a generalizing before with
  | nil => exact h
  | cons c a ih =>
    rw [List.cons_append, hasMarks, Bool.or_eq_false_iff] at h
    have hmore := ih h.2
    -- the character before the rest is the last of the part in front, if it has one
    cases a with
    | nil => exact hmore
    | cons d a =>
      rw [List.getLast?_cons] at hmore
      rw [List.getLast?_cons_cons, List.getLast?_cons]
      exact hmore

/-- A word in which nothing means something. -/
theorem isPlainWord_of_hasMarks {w after : List Char} {before : Option Char} (hne : w ≠ [])
    (hplain : ∀ c ∈ w, isPlainAscii c = true ∧ c ≠ ' ')
    (hbefore : before = none ∨ before = some ' ') (hafter : isGap after.head? = true)
    (h : hasMarks before (w ++ after) = false) :
    IsPlainWord w := by
  refine ⟨hne, hplain, fun hstart => ?_, fun hstop => ?_⟩
  · -- a remark may only begin behind a gap, and there is one in front of the word
    obtain ⟨w, rfl⟩ := List.head?_eq_some_iff.mp hstart
    rw [List.cons_append, hasMarks, Bool.or_eq_false_iff] at h
    rcases hbefore with rfl | rfl
    · exact absurd h.1 (by simp [isMarkAt, leadingMarks])
    · exact absurd h.1 (by simp [isMarkAt, isGap, isSpace])
  · -- a colon at the end of the word would be followed by a gap
    obtain ⟨u, rfl⟩ := List.getLast?_eq_some_iff.mp hstop
    rw [List.append_assoc] at h
    have hcolon := hasMarks_append h
    rw [List.singleton_append, hasMarks, Bool.or_eq_false_iff] at hcolon
    have hmark : ∀ b, isMarkAt b ':' after = true := by
      intro b
      cases b with
      | none => simp [isMarkAt, hafter]
      | some b => simp [isMarkAt, hafter]
    rw [hmark] at hcolon
    exact absurd hcolon.1 (by decide)

/-- Words with spaces between them in which nothing means something. -/
theorem isPlainRuns_of_hasMarks {runs : List Run} {before : Option Char} (hne : runs ≠ [])
    (hsep : Separated runs) (hstart : StartsWord runs)
    (hplain : ∀ c ∈ runChars runs, isPlainAscii c = true)
    (hlast : (runChars runs).getLast? ≠ some ' ') (hbefore : before = none ∨ before = some ' ')
    (h : hasMarks before (runChars runs) = false) : IsPlainRuns runs := by
  induction runs using IsPlainRuns.induct generalizing before with
  | case1 w =>
    rw [runChars_cons] at h
    exact isPlainWord_of_hasMarks hsep.1
      (fun c hc => ⟨hplain c (List.mem_append_left _ hc), (hsep.2.1 c hc).1⟩) hbefore rfl h
  | case2 w n more ih =>
    obtain ⟨hw, hchars, -, hn, hword, hmore⟩ := hsep
    rw [runChars_cons, runChars_cons] at h hlast
    have hplain' : ∀ c ∈ runChars more, isPlainAscii c = true :=
      fun c hc => hplain c (List.mem_append_right _ (List.mem_append_right _ hc))
    obtain ⟨n, rfl⟩ : ∃ m, n = m + 1 := ⟨n - 1, by omega⟩
    have hlastSpace : (List.replicate (n + 1) ' ').getLast? = some ' ' := by
      rw [List.replicate_succ', List.getLast?_append]
      rfl
    refine ⟨isPlainWord_of_hasMarks hw (fun c hc => ?_) hbefore rfl h, hn, ?_⟩
    · exact ⟨hplain c (List.mem_append_left _ hc), (hchars c hc).1⟩
    have hne : more ≠ [] := by
      rintro rfl
      refine hlast ?_
      change (w ++ (List.replicate (n + 1) ' ' ++ [])).getLast? = _
      rw [List.append_nil, List.getLast?_append, hlastSpace]
      rfl
    have hlast' : (runChars more).getLast? ≠ some ' ' := by
      intro heq
      refine hlast ?_
      rw [List.getLast?_append, List.getLast?_append, heq]
      rfl
    -- Behind the gap the character before is a space, as behind the start of a line.
    have hmarks := hasMarks_append (hasMarks_append h)
    change hasMarks ((List.replicate (n + 1) ' ').getLast?.or _) _ = _ at hmarks
    rw [hlastSpace] at hmarks
    exact ih hne hmore hword hplain' hlast' (.inr rfl) hmarks
  | case3 runs h1 h2 =>
    cases runs with
    | nil => exact absurd rfl hne
    | cons r more =>
      cases r with
      | spaces n => exact absurd (hstart _ rfl) Bool.false_ne_true
      | breaks n => exact absurd (hstart _ rfl) Bool.false_ne_true
      | word w =>
        cases more with
        | nil => exact absurd rfl (h1 w)
        | cons r more =>
          cases r with
          | spaces n => exact absurd rfl (h2 w n more)
          | word w' => cases hsep.2.2.1 _ rfl
          | breaks n =>
            -- a line break is no printable character
            have hn := hsep.2.2.2.1
            obtain ⟨n, rfl⟩ : ∃ m, n = m + 1 := ⟨n - 1, by omega⟩
            have hmem : '\n' ∈ runChars (.word w :: .breaks (n + 1) :: more) :=
              List.mem_append_right _ (List.mem_append_left _ List.mem_cons_self)
            exact absurd (hplain _ hmem) (by decide)

/-- What a text is that may stand without quotes. -/
structure FitsPlain (cs : List Char) : Prop where
  plain : ∀ c ∈ cs, isPlainAscii c = true
  start : cs.head? ≠ some ' '
  stop : cs.getLast? ≠ some ' '
  ne_nil : cs ≠ []
  noMark : startsLikeMark cs = false
  marks : hasMarks none cs = false
  sense : Plain.sense cs = .text

theorem FitsPlain.startsWord {cs : List Char} (h : FitsPlain cs) (hsep : Separated (runsOf cs)) :
    StartsWord (runsOf cs) := by
  intro r hr
  obtain ⟨more, hruns⟩ := List.head?_eq_some_iff.mp hr
  rw [hruns] at hsep
  have hhead := h.start
  rw [← runChars_runsOf cs, hruns] at hhead
  -- not spaces, for these would come first, and not breaks, which are never plain
  cases r with
  | word w => rfl
  | spaces n => exact absurd (head?_runChars_spaces hsep.1 more) hhead
  | breaks n =>
    have hfeed := head?_runChars_breaks hsep.1 more
    rw [← hruns, runChars_runsOf] at hfeed
    exact absurd (h.plain _ (List.mem_of_mem_head? hfeed)) (by decide)

theorem hasPair_of_not_mem {a b : Char} {cs : List Char} (h : a ∉ cs ∨ b ∉ cs) :
    hasPair a b cs = false := by
  induction cs with
  | nil => rfl
  | cons c cs ih =>
    have hmore := ih (h.imp (fun h hm => h (List.mem_cons_of_mem _ hm))
      fun h hm => h (List.mem_cons_of_mem _ hm))
    cases cs with
    | nil => rfl
    | cons d cs =>
      rw [hasPair, hmore, Bool.or_false, Bool.and_eq_false_iff]
      -- one of the two is missing, so it is not here either
      rcases h with h | h
      · exact .inl (decide_eq_false fun heq => h (by rw [heq]; exact List.mem_cons_self))
      · exact .inr (decide_eq_false fun heq =>
          h (by rw [heq]; exact List.mem_cons_of_mem _ List.mem_cons_self))

/-- **The runs of a text that may stand without quotes.** -/
theorem FitsPlain.isPlainRuns {cs : List Char} (h : FitsPlain cs) : IsPlainRuns (runsOf cs) := by
  -- all are plain, so the text is of one line, and no break stands beside a blank
  have hfeed : '\n' ∉ cs := fun hmem => absurd (h.plain _ hmem) (by decide)
  have hsep := separated_runsOf (hasPair_of_not_mem (.inr hfeed)) (hasPair_of_not_mem (.inl hfeed))
  have hne : runsOf cs ≠ [] := by
    intro hnil
    refine h.ne_nil ?_
    rw [← runChars_runsOf cs, hnil]
    rfl
  have hmarks : hasMarks none (runChars (runsOf cs)) = false := by
    rw [runChars_runsOf]
    exact h.marks
  refine isPlainRuns_of_hasMarks hne hsep (h.startsWord hsep) ?_ ?_ (.inl rfl) hmarks
  · rw [runChars_runsOf]
    exact h.plain
  · rw [runChars_runsOf]
    exact h.stop

theorem IsPlainRuns.isGap_head? {w : List Char} {more : List Run}
    (h : IsPlainRuns (.word w :: more)) : isGap (runChars more).head? = true := by
  cases more with
  | nil => rfl
  | cons r more =>
    cases r with
    | spaces n => rw [head?_runChars_spaces h.2.1 more]; rfl
    | word w' => exact h.elim
    | breaks n => exact h.elim

/-- **How a text begins that may stand without quotes**: its first character means nothing in front
of a word, and if it may mean something, then the word goes on. -/
theorem FitsPlain.exists_first {cs : List Char} (h : FitsPlain cs) :
    ∃ ch w more, runsOf cs = .word (ch :: w) :: more ∧ IsPlainWord (ch :: w) ∧
      leadingMarks.contains ch = false ∧ (ch = '?' ∨ ch = ':' ∨ ch = '-' → w ≠ []) := by
  have hruns := h.isPlainRuns
  obtain ⟨w, more, hcs, hw⟩ := hruns.exists_word
  cases w with
  | nil => exact absurd rfl hw.ne_nil
  | cons ch w =>
    rw [hcs] at hruns
    have hmarks := h.marks
    rw [← runChars_runsOf cs, hcs, runChars_cons, Run.chars, List.cons_append, hasMarks,
      Bool.or_eq_false_iff, isMarkAt, Bool.or_eq_false_iff, Bool.and_eq_false_iff] at hmarks
    refine ⟨ch, w, more, hcs, hw, hmarks.1.1, ?_⟩
    rintro hch rfl
    -- if the word were this character alone, a gap would come next
    rcases hmarks.1.2 with hnot | hnot
    · simp only [Bool.or_eq_false_iff, decide_eq_false_iff_not] at hnot
      rcases hch with h | h | h
      · exact hnot.1.1 h
      · exact hnot.1.2 h
      · exact hnot.2 h
    · rw [List.nil_append, hruns.isGap_head?] at hnot
      cases hnot

/-- The first character that is written for such a text, and the next. -/
theorem FitsPlain.exists_head {cs : List Char} (h : FitsPlain cs) {split : Bool} {n column : Nat}
    {inside : Bool} {after : List Char} {c : Cursor}
    (hc : c.rest = writeRuns split n column inside (runsOf cs) ++ after) :
    ∃ ch, c.peek = some ch ∧ leadingMarks.contains ch = false ∧ isGap (some ch) = false ∧
      (ch = '?' ∨ ch = ':' ∨ ch = '-' → isGap (c.peekAt 1) = false) := by
  obtain ⟨ch, w, more, hruns, hw, hlead, hnext⟩ := h.exists_first
  obtain ⟨hplain, hspace⟩ := hw.plain ch List.mem_cons_self
  rw [hruns, writeRuns, List.append_assoc] at hc
  refine ⟨ch, ?_, hlead, isGap_of_isPlainAscii hplain hspace, fun hch => ?_⟩
  · exact Cursor.peek_cons hc
  · -- one of these three is followed by more of its word, not by a gap
    cases w with
    | nil => exact absurd rfl (hnext hch)
    | cons d w =>
      obtain ⟨hplain', hspace'⟩ := hw.plain d (List.mem_cons_of_mem _ List.mem_cons_self)
      rw [Cursor.peekAt, hc]
      exact isGap_of_isPlainAscii hplain' hspace'

theorem fitsPlain_iff {cs : List Char} : fitsPlain cs = true ↔ FitsPlain cs := by
  simp only [fitsPlain, Bool.and_eq_true, Bool.not_eq_true', bne_iff_ne, beq_iff_eq,
    List.all_eq_true, List.isEmpty_eq_false_iff]
  -- The same seven conditions, in another order.
  constructor
  · rintro ⟨⟨⟨⟨⟨⟨hne, hplain⟩, hstart⟩, hstop⟩, hmark⟩, hmarks⟩, hsense⟩
    exact ⟨hplain, hstart, hstop, hne, hmark, hmarks, hsense⟩
  · rintro ⟨hplain, hstart, hstop, hne, hmark, hmarks, hsense⟩
    exact ⟨⟨⟨⟨⟨⟨hne, hplain⟩, hstart⟩, hstop⟩, hmark⟩, hmarks⟩, hsense⟩

end Yaml

end Lintel
