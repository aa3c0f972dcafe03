import Lintel.Yaml.Layout
import Lintel.Yaml.Writer

/-!
# Going past characters

A cursor goes past characters one by one. Within a line it moves to the right (`skip_flat`), a line
feed takes it to the start of the next line (`next_lineFeed`), and it never goes back to a line
above (`line_le_skip`).

Between the tokens of a document stand **gaps**: lines that are empty or hold a remark, and the
indentation of the line that comes then (`gapChars`). The scanner goes past them in one go
(`Layout.skipGaps_gap`).
-/

namespace Lintel

namespace Yaml

/-- A character that takes one place in its line. -/
def isFlat (ch : Char) : Bool :=
  !isBreak ch && ch != byteOrderMark

theorem toNat_of_isPlainAscii {ch : Char} (h : isPlainAscii ch = true) :
    0x20 ≤ ch.toNat ∧ ch.toNat ≤ 0x7E := by
  simpa [isPlainAscii] using h

theorem isBreak_of_isPlainAscii {ch : Char} (h : isPlainAscii ch = true) : isBreak ch = false := by
  obtain ⟨hlow, hhigh⟩ := toNat_of_isPlainAscii h
  have hfeed : ch ≠ '\n' := by
    rintro rfl
    exact absurd hlow (by decide)
  simp only [isBreak, hfeed, decide_false, Bool.false_or, Bool.or_eq_false_iff,
    decide_eq_false_iff_not]
  omega

theorem isFlat_of_isPlainAscii {ch : Char} (h : isPlainAscii ch = true) : isFlat ch = true := by
  have hmark : ch ≠ byteOrderMark := by
    rintro rfl
    exact absurd h (by decide)
  rw [isFlat, isBreak_of_isPlainAscii h, Bool.not_false, Bool.true_and, bne_iff_ne]
  exact hmark

namespace Cursor

variable {c : Cursor} {ch : Char} {a b : List Char}

theorem rest_next (c : Cursor) : c.next.rest = c.rest.tail := by
  unfold next
  -- at the end, and otherwise before a break, before a mark of byte order or before a letter
  split
  · next h => rw [h]; rfl
  · next h =>
    rw [h]
    split
    · rfl
    · split
      · rfl
      · rfl

theorem rest_next_cons (h : c.rest = ch :: b) : c.next.rest = b := by
  rw [rest_next, h]
  rfl

theorem peek_cons (h : c.rest = ch :: b) : c.peek = some ch := by
  rw [peek, h]
  rfl

@[simp] theorem rest_skip (n : Nat) (c : Cursor) : (c.skip n).rest = c.rest.drop n := by
  induction n generalizing c with
  | zero => rfl
  | succ n ih => rw [skip, ih, rest_next, List.drop_tail]

theorem line_le_next (c : Cursor) : c.line ≤ c.next.line := by
  unfold next
  split
  · exact Nat.le_refl _
  · split
    · exact Nat.le_succ _
    · split
      · exact Nat.le_refl _
      · exact Nat.le_refl _

theorem line_le_skip (n : Nat) (c : Cursor) : c.line ≤ (c.skip n).line := by
  induction n generalizing c with
  | zero => exact Nat.le_refl _
  | succ n ih => exact Nat.le_trans c.line_le_next (ih c.next)

theorem next_flat (h : c.rest = ch :: b) (hch : isFlat ch = true) :
    c.next = ⟨b, c.index + 1, c.line, c.column + 1⟩ := by
  rw [isFlat, Bool.and_eq_true, Bool.not_eq_true', bne_iff_ne] at hch
  unfold next
  rw [h]
  simp only
  rw [if_neg (by rw [hch.1]; exact Bool.false_ne_true), if_neg hch.2]

theorem next_lineFeed (h : c.rest = '\n' :: b) : c.next = ⟨b, c.index + 1, c.line + 1, 0⟩ := by
  unfold next
  rw [h]
  rfl

/-- **Within a line** the cursor moves to the right. -/
theorem skip_flat (h : c.rest = a ++ b) (ha : ∀ ch ∈ a, isFlat ch = true) :
    c.skip a.length = ⟨b, c.index + a.length, c.line, c.column + a.length⟩ := by
  induction a generalizing c with
  | nil =>
    rw [List.nil_append] at h
    rw [← h]
    rfl
  | cons ch a ih =>
    -- A flat character is no break, so only index and column move.
    have hnext := next_flat h (ha ch List.mem_cons_self)
    rw [List.length_cons, skip,
      ih (rest_next_cons h) fun ch hch => ha ch (List.mem_cons_of_mem _ hch), hnext]
    simp only [Cursor.mk.injEq, true_and]
    omega

theorem skip_blanks {n : Nat} (h : c.rest = List.replicate n ' ' ++ b) :
    c.skip n = ⟨b, c.index + n, c.line, c.column + n⟩ := by
  have hskip := skip_flat h fun ch hch => by
    rw [List.eq_of_mem_replicate hch]
    decide
  rw [List.length_replicate] at hskip
  exact hskip

theorem lineBreak?_lineFeed (h : c.rest = '\n' :: b) : c.lineBreak? = some ('\n', c.next) := by
  rw [lineBreak?, peek, h]
  rfl

theorem lineBreak?_of_not (h : ∀ ch, c.rest.head? = some ch → isBreak ch = false) :
    c.lineBreak? = none := by
  rw [lineBreak?, peek]
  cases hhead : c.rest.head? with
  | none => rfl
  | some ch =>
    simp only [h ch hhead]
    rfl

/-- What is true of the first character is true of whatever comes first. -/
theorem forall_head? {q : Char → Prop} (h : b.head? = some ch) (hch : q ch) :
    ∀ x, b.head? = some x → q x := by
  intro x hx
  rw [h] at hx
  cases hx
  exact hch

theorem takeWhile_append {p : Char → Bool} (h : c.rest = a ++ b) (ha : ∀ ch ∈ a, p ch = true)
    (hb : ∀ ch, b.head? = some ch → p ch = false) : c.takeWhile p = (a, c.skip a.length) := by
  -- The run stops exactly where the second part begins.
  have hb' : b.takeWhile p = [] := by
    cases b with
    | nil => rfl
    | cons ch b => exact List.takeWhile_cons_of_neg (by rw [hb ch rfl]; exact Bool.false_ne_true)
  have htake : c.rest.takeWhile p = a := by
    rw [h, List.takeWhile_append_of_pos ha, hb', List.append_nil]
  rw [takeWhile, htake]

theorem takeWhile_none {p : Char → Bool} (h : ∀ ch, c.rest.head? = some ch → p ch = false) :
    c.takeWhile p = ([], c) :=
  takeWhile_append (a := []) rfl (fun _ hch => absurd hch List.not_mem_nil) h

theorem takeWhile_replicate {p : Char → Bool} {n : Nat} (h : c.rest = List.replicate n ch ++ b)
    (hch : p ch = true) (hb : ∀ ch, b.head? = some ch → p ch = false) :
    c.takeWhile p = (List.replicate n ch, c.skip n) := by
  have htake := takeWhile_append h (fun x hx => by rw [List.eq_of_mem_replicate hx, hch]) hb
  rw [List.length_replicate] at htake
  exact htake

theorem skipWhile_append {p : Char → Bool} (h : c.rest = a ++ b) (ha : ∀ ch ∈ a, p ch = true)
    (hb : ∀ ch, b.head? = some ch → p ch = false) : c.skipWhile p = c.skip a.length := by
  rw [skipWhile, takeWhile_append h ha hb]

theorem skipWhile_none {p : Char → Bool} (h : ∀ ch, c.rest.head? = some ch → p ch = false) :
    c.skipWhile p = c := by
  rw [skipWhile, takeWhile_none h]

theorem skipWhile_replicate {p : Char → Bool} {n : Nat} (h : c.rest = List.replicate n ch ++ b)
    (hch : p ch = true) (hb : ∀ ch, b.head? = some ch → p ch = false) :
    c.skipWhile p = c.skip n := by
  rw [skipWhile, takeWhile_replicate h hch hb]

end Cursor

/-! ### Gaps -/

/-- A line without content: it is empty or a remark. -/
structure IsRemark (line : List Char) : Prop where
  start : line = [] ∨ line.head? = some '#'
  inLine : ∀ ch ∈ line, isBreak ch = false

def gapChars (lines : List (List Char)) (indent : Nat) : List Char :=
  lines.flatMap (· ++ ['\n']) ++ List.replicate indent ' '

/-- Content begins here, or the document ends. -/
def StartsContent (rest : List Char) : Prop :=
  ∀ ch, rest.head? = some ch → ch ≠ ' ' ∧ ch ≠ '#' ∧ isBreak ch = false

/-- A gap comes next, and after it content in a column. -/
def Cursor.LeadsTo (c : Cursor) (lines : List (List Char)) (column : Nat) (rest : List Char) :
    Prop :=
  (∀ line ∈ lines, IsRemark line) ∧ StartsContent rest ∧
    ∃ indent, c.rest = gapChars lines indent ++ rest ∧
      if lines = [] then c.column + indent = column else indent = column

theorem gapChars_cons (line : List Char) (lines : List (List Char)) (indent : Nat) :
    gapChars (line :: lines) indent = line ++ '\n' :: gapChars lines indent := by
  rw [gapChars, List.flatMap_cons, List.append_assoc, List.append_assoc]
  rfl

namespace Layout

variable {lines : List (List Char)} {indent : Nat} {rest : List Char}

/-- A line without content is passed up to its end. -/
theorem skip_remark {c : Cursor} {line : List Char} (h : c.rest = line ++ '\n' :: rest)
    (hline : IsRemark line) :
    (if (c.skipWhile (· = ' ')).peek = some '#' then (c.skipWhile (· = ' ')).skipLine
      else c.skipWhile (· = ' ')) = c.skip line.length := by
  -- there is no blank in front
  have hblank : c.skipWhile (· = ' ') = c := by
    refine Cursor.skipWhile_none fun ch hch => ?_
    rw [h] at hch
    rcases hline.start with rfl | hhead
    · cases hch
      rfl
    · obtain ⟨line, rfl⟩ := List.head?_eq_some_iff.mp hhead
      cases hch
      rfl
  rw [hblank]
  rcases hline.start with rfl | hhead
  · rw [Cursor.peek_cons h]
    rfl
  · obtain ⟨line, rfl⟩ := List.head?_eq_some_iff.mp hhead
    rw [if_pos (Cursor.peek_cons h), Cursor.skipLine]
    refine Cursor.skipWhile_append h (fun ch hch => ?_) (fun ch hch => ?_)
    · rw [hline.inLine ch hch]
      rfl
    · cases hch
      rfl

theorem skipGaps_indent {l : Layout} (hl : l.cursor.rest = List.replicate indent ' ' ++ rest)
    (hrest : StartsContent rest) (fuel : Nat) :
    skipGaps (fuel + 1) l = { l with cursor := l.cursor.skip indent } := by
  have hskip := Cursor.skip_blanks hl
  have hwhile : l.cursor.skipWhile (· = ' ') = l.cursor.skip indent :=
    Cursor.skipWhile_replicate hl rfl fun ch hch => decide_eq_false (hrest ch hch).1
  -- After the indent stands content: no remark and no break, so the loop ends in one turn.
  have hremark : (l.cursor.skip indent).peek ≠ some '#' := by
    rw [hskip]
    exact fun h => (hrest _ h).2.1 rfl
  have hbreak : (l.cursor.skip indent).lineBreak? = none := by
    rw [hskip]
    exact Cursor.lineBreak?_of_not fun ch hch => (hrest ch hch).2.2
  unfold skipGaps
  simp only [hwhile]
  rw [if_neg hremark, hbreak]

/-- A line without content is passed with its end, and then a key is allowed in a block. -/
theorem skipGaps_remark {l : Layout} {line : List Char} (hl : l.cursor.rest = line ++ '\n' :: rest)
    (hline : IsRemark line) (fuel : Nat) :
    skipGaps (fuel + 1) l
      = skipGaps fuel { l with
          cursor := (l.cursor.skip line.length).next, allowsKey := l.allowsKey || !l.inFlow } := by
  have hremark := skip_remark hl hline
  have hend : (l.cursor.skip line.length).rest = '\n' :: rest := by
    rw [Cursor.rest_skip, hl, List.drop_left]
  rw [skipGaps]
  simp only [hremark, Cursor.lineBreak?_lineFeed hend]

/-- **A gap is passed in one go.** The cursor comes to stand at what follows, in the column that the
indentation gives; if there was a line, then in a line below, and a key is allowed there. -/
theorem skipGaps_gap {c₀ : Cursor} (hc₀ : c₀.rest = gapChars lines indent ++ rest)
    (hlines : ∀ line ∈ lines, IsRemark line) (hrest : StartsContent rest) {fuel : Nat}
    (hfuel : lines.length < fuel) :
    ∃ c : Cursor, c.rest = rest ∧
      (lines = [] → c = ⟨rest, c₀.index + indent, c₀.line, c₀.column + indent⟩) ∧
      (lines ≠ [] → c₀.line < c.line ∧ c.column = indent) ∧
      ∀ l : Layout, l.cursor = c₀ → skipGaps fuel l
        = { l with cursor := c, allowsKey := l.allowsKey || (!lines.isEmpty && !l.inFlow) } := by
  induction lines generalizing c₀ fuel with
  | nil =>
    obtain ⟨fuel, rfl⟩ : ∃ n, fuel = n + 1 := ⟨fuel - 1, by omega⟩
    have hskip := Cursor.skip_blanks (b := rest) hc₀
    refine ⟨c₀.skip indent, by rw [hskip], fun _ => hskip, fun h => absurd rfl h, fun l hl => ?_⟩
    subst hl
    rw [skipGaps_indent hc₀ hrest]
    simp
  | cons line lines ih =>
    obtain ⟨fuel, rfl⟩ : ∃ n, fuel = n + 1 := ⟨fuel - 1, by omega⟩
    rw [gapChars_cons, List.append_assoc, List.cons_append] at hc₀
    have hend : (c₀.skip line.length).rest = '\n' :: (gapChars lines indent ++ rest) := by
      rw [Cursor.rest_skip, hc₀, List.drop_left]
    have hnext := Cursor.next_lineFeed hend
    -- go on in the next line
    obtain ⟨c, hcrest, hnone, hsome, hskip⟩ := ih (Cursor.rest_next_cons hend)
      (fun x hx => hlines x (List.mem_cons_of_mem _ hx)) (Nat.lt_of_succ_lt_succ hfuel)
    have hline := Cursor.line_le_skip line.length c₀
    refine ⟨c, hcrest, nofun, fun _ => ?_, fun l hl => ?_⟩
    · rw [hnext] at hnone hsome
      by_cases h : lines = []
      · rw [hnone h]
        exact ⟨by simp only; omega, by simp only; omega⟩
      · obtain ⟨hlt, hcolumn⟩ := hsome h
        simp only at hlt
        exact ⟨by omega, hcolumn⟩
    · subst hl
      rw [skipGaps_remark hc₀ (hlines line List.mem_cons_self), hskip _ rfl]
      -- A key is allowed after any line break outside flow, however many follow.
      have hkey : (l.allowsKey || !l.inFlow || (!lines.isEmpty && !l.inFlow))
          = (l.allowsKey || (!(line :: lines).isEmpty && !l.inFlow)) := by
        cases l.allowsKey <;> cases l.inFlow <;> cases lines <;> rfl
      rw [← hkey]
      rfl

end Layout

end Yaml

end Lintel
