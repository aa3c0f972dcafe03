import Lintel.Proofs.Yaml.Cursor

/-!
# Reading quoted scalars back

A quoted scalar is written part by part: a character as it is, a doubled quote, spaces, a line break
with the indentation of the next line, or an escape. What the reader takes from a part is told by
`Takes`, with a lemma for each kind of part, and what it makes of all that is left up to the closing
quote by `ReadsTo`. A part in front of text that is read to something is read to the part and that
(`Takes.readsTo`).

So a text in double quotes is read back as it was (`readsTo_writeDouble`): by strong induction on
its length, because a fold in front of a space is written together with the space.
-/

namespace Lintel

namespace Yaml

def quotedOn (double : Bool) (fuel : Nat) (part : List Char × Cursor) :
    Except Error (List Char × Cursor) :=
  (quotedRest double fuel part.2).map fun r => (part.1 ++ r.1, r.2)

/-- What the next character decides. -/
theorem quotedRest_cons {double : Bool} {fuel : Nat} {c : Cursor} {ch : Char} {more : List Char}
    (hc : c.rest = ch :: more) :
    quotedRest double (fuel + 1) c =
      if ch = '\'' && !double then
        if more.head? = some '\'' then quotedOn double fuel (['\''], c.skip 2) else .ok ([], c.next)
      else if ch = '"' && double then .ok ([], c.next)
      else if ch = '\\' && double then (readEscape fuel c.next).bind (quotedOn double fuel)
      else if isSpace ch || isBreak ch then (quotedGap fuel c).bind (quotedOn double fuel)
      else quotedOn double fuel ([ch], c.next) := by
  -- all branches go on in the same way
  have hon : ∀ part : List Char × Cursor, (quotedRest double fuel part.2 >>= fun r =>
      Except.ok (part.1 ++ r.1, r.2)) = quotedOn double fuel part := by
    intro part
    unfold quotedOn
    cases quotedRest double fuel part.2 with
    | error e => rfl
    | ok r => rfl
  rw [quotedRest, hc]
  simp only [hon]
  cases readEscape fuel c.next <;> cases quotedGap fuel c <;> rfl

/-- The rest of a quoted scalar is read as some characters, and something is left after its closing
quote. This depends on the characters alone and not on their place. -/
def ReadsTo (double : Bool) (text cs after : List Char) : Prop :=
  ∀ (c : Cursor) (fuel : Nat), c.rest = text → text.length < fuel →
    ∃ c', quotedRest double fuel c = .ok (cs, c') ∧ c'.rest = after ∧ c.line ≤ c'.line

/-- The characters at the start of the rest of a quoted scalar are read as a part of it, and the
rest goes on after them. -/
def Takes (double : Bool) (text part more : List Char) : Prop :=
  more.length < text.length ∧
    ∀ (c : Cursor) (fuel : Nat), c.rest = text → text.length ≤ fuel →
      ∃ c' : Cursor, c'.rest = more ∧ c.line ≤ c'.line ∧
        quotedRest double (fuel + 1) c = quotedOn double fuel (part, c')

variable {double : Bool} {text part more cs after : List Char} {ch : Char}

theorem Takes.readsTo (h : Takes double text part more) (hmore : ReadsTo double more cs after) :
    ReadsTo double text (part ++ cs) after := by
  intro c fuel hc hfuel
  -- the fuel is more than the characters left, so there is one to spend
  obtain ⟨fuel, rfl⟩ : ∃ n, fuel = n + 1 := ⟨fuel - 1, by omega⟩
  obtain ⟨hlen, htakes⟩ := h
  obtain ⟨c', hc', hline, hread⟩ := htakes c fuel hc (by omega)
  obtain ⟨c'', hread', hafter, hline'⟩ := hmore c' fuel hc' (by omega)
  refine ⟨c'', ?_, hafter, by omega⟩
  rw [hread, quotedOn, hread']
  rfl

theorem ReadsTo.readQuoted (h : ReadsTo double text cs after) {c : Cursor} {q : Char}
    (hc : c.rest = q :: text) :
    ∃ c', readQuoted double c = .ok (.scalar (String.ofList cs) false, c') ∧ c'.rest = after ∧
      c.line ≤ c'.line := by
  have hnext : c.next.rest = text := by
    rw [Cursor.rest_next, hc]
    rfl
  -- The fuel is the length of the text left, which is enough to reach the closing quote.
  obtain ⟨c', hread, hafter, hline⟩ := h c.next (c.rest.length + 1) hnext (by
    rw [hc, List.length_cons]
    omega)
  refine ⟨c', ?_, hafter, Nat.le_trans c.line_le_next hline⟩
  rw [Yaml.readQuoted, hread]
  rfl

/-! ### Characters -/

/-- A character that stands for itself between quotes, next to whatever it is. -/
def isInert (double : Bool) (ch : Char) : Bool :=
  !isSpace ch && !isBreak ch && if double then ch != '"' && ch != '\\' else ch != '\''

theorem takes_inert (h : isInert double ch = true) : Takes double (ch :: more) [ch] more := by
  refine ⟨Nat.lt_succ_self _, fun c fuel hc _ => ⟨c.next, ?_, c.line_le_next, ?_⟩⟩
  · rw [Cursor.rest_next, hc]
    rfl
  · rw [quotedRest_cons hc]
    unfold isInert at h
    cases double <;> simp_all

/-- A doubled single quote stands for one. -/
theorem takes_quote : Takes false ('\'' :: '\'' :: more) ['\''] more := by
  refine ⟨by rw [List.length_cons, List.length_cons]; omega, fun c fuel hc _ =>
    ⟨c.skip 2, ?_, c.line_le_skip 2, ?_⟩⟩
  · rw [Cursor.rest_skip, hc]
    rfl
  · rw [quotedRest_cons hc]
    rfl

theorem readsTo_close (h : double = false → after.head? ≠ some '\'') :
    ReadsTo double ((if double then '"' else '\'') :: after) [] after := by
  intro c fuel hc hfuel
  obtain ⟨fuel, rfl⟩ : ∃ n, fuel = n + 1 := ⟨fuel - 1, by omega⟩
  refine ⟨c.next, ?_, ?_, c.line_le_next⟩
  · rw [quotedRest_cons hc]
    cases double with
    | true => rfl
    | false =>
      -- Two single quotes would stand for one, so what follows is asked for.
      rw [if_neg (h rfl)]
      rfl
  · rw [Cursor.rest_next, hc]
    rfl

/-! ### Blanks and line breaks -/

/-- Content of a quoted scalar begins here: what comes next is neither a blank nor a line break. -/
def StartsText (text : List Char) : Prop :=
  ∃ ch, text.head? = some ch ∧ isSpace ch = false ∧ isBreak ch = false

theorem takes_gap (hch : isSpace ch = true ∨ isBreak ch = true)
    (hlen : more.length < (ch :: text).length)
    (h : ∀ (c : Cursor) (fuel : Nat), c.rest = ch :: text → (ch :: text).length ≤ fuel →
      ∃ c' : Cursor, c'.rest = more ∧ c.line ≤ c'.line ∧ quotedGap fuel c = .ok (part, c')) :
    Takes double (ch :: text) part more := by
  refine ⟨hlen, fun c fuel hc hfuel => ?_⟩
  obtain ⟨c', hc', hline, hgap⟩ := h c fuel hc hfuel
  refine ⟨c', hc', hline, ?_⟩
  have hcond : (isSpace ch || isBreak ch) = true := by
    rcases hch with h | h
    · rw [h]
      rfl
    · rw [h, Bool.or_true]
  -- a blank is none of the characters that mean something between quotes
  have hquotes : ch ≠ '\'' ∧ ch ≠ '"' ∧ ch ≠ '\\' := by
    refine ⟨?_, ?_, ?_⟩
    · rintro rfl
      exact absurd hcond (by decide)
    · rintro rfl
      exact absurd hcond (by decide)
    · rintro rfl
      exact absurd hcond (by decide)
  rw [quotedRest_cons hc, hgap, if_pos hcond]
  simp only [hquotes.1, hquotes.2.1, hquotes.2.2, decide_false, Bool.false_and, Bool.false_eq_true,
    if_false]
  rfl

theorem takes_spaces {n : Nat} (hn : 0 < n) (hmore : StartsText more) :
    Takes double (List.replicate n ' ' ++ more) (List.replicate n ' ') more := by
  obtain ⟨n, rfl⟩ : ∃ m, n = m + 1 := ⟨n - 1, by omega⟩
  obtain ⟨ch, hhead, hspace, hbreak⟩ := hmore
  rw [List.replicate_succ, List.cons_append]
  refine takes_gap (.inl rfl) ?_ fun c fuel hc _ => ?_
  · rw [List.length_cons, List.length_append]
    omega
  have hrest : c.rest = List.replicate (n + 1) ' ' ++ more := hc
  have hmore : (c.skip (n + 1)).rest = more := by
    rw [Cursor.rest_skip, hrest, List.drop_left' List.length_replicate]
  refine ⟨c.skip (n + 1), hmore, c.line_le_skip _, ?_⟩
  have htake : c.takeWhile isSpace = (List.replicate (n + 1) ' ', c.skip (n + 1)) :=
    Cursor.takeWhile_replicate hrest rfl (Cursor.forall_head? hhead hspace)
  -- behind the spaces stands text, so no line break is to be read
  have hpeek : (c.skip (n + 1)).peek = some ch := by rw [Cursor.peek, hmore, hhead]
  have hnone : (c.skip (n + 1)).lineBreak? = none :=
    Cursor.lineBreak?_of_not (Cursor.forall_head? hpeek hbreak)
  unfold quotedGap
  rw [htake]
  simp only [hpeek, hnone]
  rfl

theorem atAnyMark_of_head? {c : Cursor} (h : ∀ ch, c.rest.head? = some ch → ch ≠ '-' ∧ ch ≠ '.') :
    c.atAnyMark = false := by
  -- three dashes or three dots: the first of the three is not there
  have hpeek : ∀ mark : Char, (∀ ch, c.rest.head? = some ch → ch ≠ mark) →
      c.atMark mark = false := by
    intro mark hmark
    have hne : (c.peekAt 0 == some mark) = false := by
      rw [Cursor.peekAt, ← List.head?_eq_getElem?, beq_eq_false_iff_ne]
      exact fun heq => hmark mark heq rfl
    rw [Cursor.atMark, hne]
    rfl
  rw [Cursor.atAnyMark, hpeek '-' fun ch hch => (h ch hch).1, hpeek '.' fun ch hch => (h ch hch).2]
  rfl

/-- The line breaks after the first, and the indentation of the line in which the text goes on. -/
theorem quotedBreaks_append {n indent : Nat} (hindent : 0 < indent) (hmore : StartsText more)
    {c : Cursor} (hc : c.rest = List.replicate n '\n' ++ (List.replicate indent ' ' ++ more))
    {fuel : Nat} (hfuel : n < fuel) :
    ∃ c' : Cursor, quotedBreaks fuel c = .ok (List.replicate n '\n', c') ∧ c'.rest = more ∧
      c.line ≤ c'.line := by
  obtain ⟨ch, hhead, hspace, hbreak⟩ := hmore
  induction n generalizing c fuel with
  | zero =>
    obtain ⟨fuel, rfl⟩ : ∃ m, fuel = m + 1 := ⟨fuel - 1, by omega⟩
    rw [List.replicate_zero, List.nil_append] at hc
    -- the line begins with the indentation, so no document ends here
    have hmark : c.atAnyMark = false := by
      obtain ⟨indent, rfl⟩ : ∃ m, indent = m + 1 := ⟨indent - 1, by omega⟩
      exact atAnyMark_of_head? (Cursor.forall_head? (Cursor.peek_cons hc) (by decide))
    have hskip : c.skipWhile isSpace = c.skip indent :=
      Cursor.skipWhile_replicate hc rfl (Cursor.forall_head? hhead hspace)
    have hrest : (c.skip indent).rest = more := by
      rw [Cursor.rest_skip, hc, List.drop_left' List.length_replicate]
    have hnone : (c.skip indent).lineBreak? = none :=
      Cursor.lineBreak?_of_not (Cursor.forall_head? (by rw [hrest, hhead]) hbreak)
    refine ⟨c.skip indent, ?_, hrest, c.line_le_skip _⟩
    rw [quotedBreaks, hmark, hskip]
    simp only [hnone]
    rfl
  | succ n ih =>
    obtain ⟨fuel, rfl⟩ : ∃ m, fuel = m + 1 := ⟨fuel - 1, by omega⟩
    rw [List.replicate_succ, List.cons_append] at hc
    have hfeed : c.rest.head? = some '\n' := Cursor.peek_cons hc
    have hmark : c.atAnyMark = false :=
      atAnyMark_of_head? (Cursor.forall_head? hfeed (by decide))
    -- An empty line has no blanks in front of its break.
    have hskip : c.skipWhile isSpace = c :=
      Cursor.skipWhile_none (Cursor.forall_head? hfeed rfl)
    have hnext : c.next.rest
        = List.replicate n '\n' ++ (List.replicate indent ' ' ++ more) := by
      rw [Cursor.rest_next, hc]
      rfl
    obtain ⟨c', hread, hrest, hline⟩ := ih hnext (Nat.lt_of_succ_lt_succ hfuel)
    refine ⟨c', ?_, hrest, Nat.le_trans c.line_le_next hline⟩
    rw [quotedBreaks, hmark, hskip]
    simp only [Cursor.lineBreak?_lineFeed hc, hread]
    rfl

/-- **A line break between quotes** and the indentation after it count as a space; of several line
breaks one does not count. -/
theorem takes_breaks {n indent : Nat} (hindent : 0 < indent) (hmore : StartsText more) :
    Takes double (List.replicate n '\n' ++ newLine indent ++ more)
      (if n = 0 then [' '] else List.replicate n '\n') more := by
  have htext : List.replicate n '\n' ++ newLine indent ++ more
      = '\n' :: (List.replicate n '\n' ++ (List.replicate indent ' ' ++ more)) := by
    rw [newLine, List.append_assoc, List.cons_append, List.append_cons, ← List.replicate_succ',
      List.replicate_succ]
    rfl
  rw [htext]
  refine takes_gap (.inr rfl) ?_ fun c fuel hc hfuel => ?_
  · simp only [List.length_cons, List.length_append]
    omega
  have hnext : c.next.rest = List.replicate n '\n' ++ (List.replicate indent ' ' ++ more) := by
    rw [Cursor.rest_next, hc]
    rfl
  have hfuel' : n < fuel := by
    simp only [List.length_cons, List.length_append, List.length_replicate] at hfuel
    omega
  obtain ⟨c', hread, hrest, hline⟩ := quotedBreaks_append hindent hmore hnext hfuel'
  have hpeek : c.peek = some '\n' := Cursor.peek_cons hc
  have htake : c.takeWhile isSpace = ([], c) :=
    Cursor.takeWhile_none (Cursor.forall_head? hpeek rfl)
  -- of a single line break a space is left, and of more than one all but the first
  refine ⟨c', hrest, Nat.le_trans c.line_le_next hline, ?_⟩
  unfold quotedGap
  rw [htake]
  simp only [hpeek, Cursor.lineBreak?_lineFeed hc, hread]
  cases n with
  | zero => rfl
  | succ n => rfl

/-! ### Escapes -/

/-- What a backslash and the characters after it stand for. -/
theorem takes_escape {e : List Char} (hlen : more.length ≤ e.length)
    (h : ∀ (c : Cursor) (fuel : Nat), c.rest = e → e.length < fuel →
      ∃ c' : Cursor, c'.rest = more ∧ c.line ≤ c'.line ∧ readEscape fuel c = .ok (part, c')) :
    Takes true ('\\' :: e) part more := by
  refine ⟨Nat.lt_succ_of_le hlen, fun c fuel hc hfuel => ?_⟩
  have hnext : c.next.rest = e := by
    rw [Cursor.rest_next, hc]
    rfl
  obtain ⟨c', hc', hline, hread⟩ := h c.next fuel hnext hfuel
  refine ⟨c', hc', Nat.le_trans c.line_le_next hline, ?_⟩
  rw [quotedRest_cons hc, hread]
  rfl

/-- A backslash at the end of a line: the line break and the indentation do not count. -/
theorem takes_fold {indent : Nat} (hindent : 0 < indent) (hmore : StartsText more) :
    Takes true ('\\' :: (newLine indent ++ more)) [] more := by
  refine takes_escape (by rw [List.length_append]; omega) fun c fuel hc hfuel => ?_
  have hc' : c.rest = '\n' :: (List.replicate indent ' ' ++ more) := hc
  have hnext : c.next.rest = List.replicate 0 '\n' ++ (List.replicate indent ' ' ++ more) := by
    rw [Cursor.rest_next, hc']
    rfl
  have hfuel' : 0 < fuel := by omega
  obtain ⟨c', hread, hrest, hline⟩ := quotedBreaks_append hindent hmore hnext hfuel'
  have hpeek : c.peek = some '\n' := by
    rw [Cursor.peek, hc']
    rfl
  -- a line feed is no letter of an escape
  have hletter : letterValue? '\n' = none := by decide
  have hwidth : codeWidth? '\n' = none := by decide
  refine ⟨c', hrest, Nat.le_trans c.line_le_next hline, ?_⟩
  unfold readEscape
  simp only [hpeek, hletter, hwidth, Cursor.lineBreak?_lineFeed hc', hread]
  rfl

theorem takes_letter {l : Char} (h : letterValue? l = some ch) :
    Takes true ('\\' :: l :: more) [ch] more := by
  refine takes_escape (Nat.le_succ _) fun c fuel hc _ => ⟨c.next, ?_, c.line_le_next, ?_⟩
  · rw [Cursor.rest_next, hc]
    rfl
  · have hpeek : c.peek = some l := Cursor.peek_cons hc
    unfold readEscape
    simp only [hpeek, h]

theorem toNat_valid (ch : Char) :
    ch.toNat < 0xD800 ∨ 0xDFFF < ch.toNat ∧ ch.toNat < 0x110000 :=
  ch.valid

theorem toNat_lt (ch : Char) : ch.toNat < 0x110000 := by
  have h := toNat_valid ch
  omega

theorem takes_code {mark : Char} {digits : List Char} (hmark : letterValue? mark = none)
    (hwidth : codeWidth? mark = some digits.length) (hdigits : hexNumber? digits = some ch.toNat) :
    Takes true ('\\' :: mark :: (digits ++ more)) [ch] more := by
  refine takes_escape ?_ fun c fuel hc _ => ⟨c.next.skip digits.length, ?_, ?_, ?_⟩
  · rw [List.length_cons, List.length_append]
    omega
  · rw [Cursor.rest_skip, Cursor.rest_next, hc]
    exact List.drop_left
  · exact Nat.le_trans c.line_le_next (Cursor.line_le_skip _ _)
  · have hpeek : c.peek = some mark := Cursor.peek_cons hc
    have hrest : c.next.rest = digits ++ more := by
      rw [Cursor.rest_next, hc]
      rfl
    -- the number is that of a character, so it is not refused
    have hvalid := toNat_valid ch
    unfold readEscape
    simp only [hpeek, hmark, hwidth]
    unfold readCode
    rw [hrest, List.take_left]
    simp only [hdigits, Char.ofNat_toNat]
    rw [if_neg (Nat.lt_irrefl _), if_neg (by omega), if_neg (by omega), if_neg (by omega)]

/-! ### Numbers in digits -/

theorem hexNumber?_append (a : List Char) (d : Char) :
    hexNumber? (a ++ [d]) = (hexNumber? a).bind fun n => (hexValue? d).map (n * 16 + ·) := by
  unfold hexNumber?
  rw [List.foldlM_append]
  -- The fold reads the digits from the left, so the last one is added last.
  cases (a.foldlM (fun n c => (hexValue? c).map (n * 16 + ·)) 0 : Option Nat) with
  | none => rfl
  | some n =>
    change (hexValue? d).map (n * 16 + ·) >>= pure = _
    cases hexValue? d with
    | none => rfl
    | some v => rfl

theorem hexValue?_digitChar : ∀ d < 16, hexValue? (Nat.digitChar d).toUpper = some d := by
  decide

theorem hexNumber?_toDigits (n : Nat) :
    hexNumber? ((Nat.toDigits 16 n).map Char.toUpper) = some n := by
  induction n using Nat.strongRecOn with
  | _ n ih =>
    -- one digit, or those of the quotient and one more
    by_cases hn : n < 16
    · rw [Nat.toDigits_of_lt_base hn]
      change ((hexValue? (Nat.digitChar n).toUpper).map (0 * 16 + ·)).bind _ = _
      rw [hexValue?_digitChar n hn]
      simp
    · rw [Nat.toDigits_of_base_le (by decide) (by omega), List.map_append, List.map_singleton,
        hexNumber?_append, ih (n / 16) (by omega), hexValue?_digitChar _ (Nat.mod_lt n (by decide))]
      simp only [Option.bind_some, Option.map_some, Option.some.injEq]
      omega

theorem hexNumber?_zeros (k : Nat) (digits : List Char) :
    hexNumber? (List.replicate k '0' ++ digits) = hexNumber? digits := by
  induction k with
  | zero => rfl
  | succ k ih => exact ih

theorem hexNumber?_hexDigits (width n : Nat) :
    hexNumber? ((hexDigits width n).map Char.toUpper) = some n := by
  have hzero : ('0' : Char).toUpper = '0' := by decide
  rw [hexDigits, List.map_append, List.map_replicate, hzero, hexNumber?_zeros, hexNumber?_toDigits]

theorem length_hexDigits {width n : Nat} (hwidth : 0 < width) (hn : n < Nat.pow 16 width) :
    (hexDigits width n).length = width := by
  have hlen := (Nat.length_toDigits_le_iff (b := 16) (by decide) hwidth).mpr hn
  rw [hexDigits, List.length_append, List.length_replicate]
  omega

/-! ### Double quotes -/

theorem letterValue?_of_escapeLetter? {l : Char} (h : escapeLetter? ch = some l) :
    letterValue? l = some ch := by
  rw [← Char.ofNat_toNat ch]
  unfold escapeLetter? at h
  split at h <;> next hn => cases h <;> (rw [hn]; rfl)

theorem exists_escapeCode {n : Nat} (hn : n < 0x110000) :
    ∃ mark width, escapeCode n = '\\' :: mark :: hexDigits width n ∧
      letterValue? mark = none ∧ codeWidth? mark = some (hexDigits width n).length := by
  unfold escapeCode
  -- two digits, four or eight, by the size of the number
  split
  · refine ⟨'x', 2, rfl, by decide, ?_⟩
    rw [length_hexDigits (by decide) (by omega)]
    decide
  · split
    · refine ⟨'u', 4, rfl, by decide, ?_⟩
      rw [length_hexDigits (by decide) (by omega)]
      decide
    · refine ⟨'U', 8, rfl, by decide, ?_⟩
      rw [length_hexDigits (by decide) (Nat.lt_trans hn (by decide))]
      decide

/-- **The escape of a character**: a letter or a number. -/
theorem escape?_cases {e : List Char} (h : escape? ch = some e) :
    (∃ l, e = ['\\', l] ∧ letterValue? l = some ch) ∨
    ∃ mark digits, e = '\\' :: mark :: digits ∧ letterValue? mark = none ∧
      codeWidth? mark = some digits.length ∧ hexNumber? digits = some ch.toNat := by
  unfold escape? at h
  split at h
  · next l hl =>
    cases h
    exact .inl ⟨l, rfl, letterValue?_of_escapeLetter? hl⟩
  · split at h
    · cases h
    · -- A character without a letter of its own is written as its number, in the width that fits
      -- it.
      obtain ⟨mark, width, hcode, hletter, hwidth⟩ := exists_escapeCode (toNat_lt ch)
      rw [hcode] at h
      cases h
      refine .inr ⟨mark, _, rfl, hletter, ?_, hexNumber?_hexDigits width _⟩
      rw [List.length_map]
      exact hwidth

theorem takes_of_escape? {e : List Char} (h : escape? ch = some e) :
    Takes true (e ++ more) [ch] more := by
  rcases escape?_cases h with ⟨l, rfl, hletter⟩ | ⟨mark, digits, rfl, hletter, hwidth, hdigits⟩
  · exact takes_letter hletter
  · exact takes_code hletter hwidth hdigits

theorem exists_of_escape? {e : List Char} (h : escape? ch = some e) : ∃ e', e = '\\' :: e' := by
  rcases escape?_cases h with ⟨l, rfl, -⟩ | ⟨mark, digits, rfl, -⟩
  · exact ⟨_, rfl⟩
  · exact ⟨_, rfl⟩

/-- What needs no escape is a space or stands for itself. -/
theorem inert_of_escape? (h : escape? ch = none) (hspace : ch ≠ ' ') : isInert true ch = true := by
  unfold escape? at h
  split at h
  · cases h
  · next hletter =>
    split at h
    · next hplain =>
      -- the characters that are not inert all have an escape
      have htab : ch ≠ '\t' := by
        rintro rfl
        exact absurd hplain (by decide)
      have hquote : ch ≠ '"' := by
        rintro rfl
        exact absurd hletter (by decide)
      have hslash : ch ≠ '\\' := by
        rintro rfl
        exact absurd hletter (by decide)
      rw [isInert, isBreak_of_isPlainAscii hplain, isSpace]
      simp [hspace, htab, hquote, hslash]
    · -- what is not plain ASCII has an escape by its number
      obtain ⟨mark, width, hcode, -⟩ := exists_escapeCode (toNat_lt ch)
      rw [hcode] at h
      cases h

theorem startsText_of_inert (h : isInert double ch = true) : StartsText (ch :: more) := by
  refine ⟨ch, rfl, ?_⟩
  unfold isInert at h
  cases hs : isSpace ch <;> cases hb : isBreak ch <;> simp_all

theorem startsText_backslash : StartsText ('\\' :: more) :=
  ⟨'\\', rfl, rfl, rfl⟩

theorem ReadsTo.spaces (h : ReadsTo double more cs after) (hmore : StartsText more) (k : Nat) :
    ReadsTo double (List.replicate k ' ' ++ more) (List.replicate k ' ' ++ cs) after := by
  cases k with
  | zero => exact h
  | succ k => exact (takes_spaces (Nat.succ_pos k) hmore).readsTo h

/-- Unless a space comes next, what is written begins with text. -/
theorem startsText_writeDouble {split inside fresh : Bool} {indent column : Nat}
    (h : cs.head? ≠ some ' ') :
    StartsText (writeDouble split indent column inside fresh cs ++ '"' :: after) := by
  cases cs with
  | nil => exact ⟨'"', rfl, rfl, rfl⟩
  | cons ch cs =>
    have hspace : ch ≠ ' ' := fun heq => h (by rw [heq]; rfl)
    unfold writeDouble
    simp only
    split
    · next e he =>
      -- an escape begins with a backslash, and so does a fold
      obtain ⟨e', rfl⟩ := exists_of_escape? he
      split
      · exact startsText_backslash
      · exact startsText_backslash
    · next hnone =>
      split
      · exact startsText_backslash
      · exact startsText_of_inert (inert_of_escape? hnone hspace)

/-- At the start of a line a space is not folded away. -/
theorem writeDouble_space {split inside fresh : Bool} {indent column : Nat}
    (h : column ≤ lineWidth) :
    writeDouble split indent column inside fresh (' ' :: cs)
      = ' ' :: writeDouble split indent (column + 1) true false cs := by
  have hescape : escape? ' ' = none := by decide
  have hfits : decide (lineWidth < column) = false := decide_eq_false (by omega)
  rw [writeDouble, hescape]
  simp only [hfits, Bool.and_false, Bool.false_eq_true, if_false]

section Folds

variable {split : Bool} {indent : Nat} {rest : List Char}

/-- **A line that is folded behind an escape** goes on with the rest. If this begins with a space,
the space is escaped, and only what follows it is written as before. -/
theorem readsTo_foldMark (hindent : 0 < indent) (hwidth : indent + 1 ≤ lineWidth)
    (hrest : ∀ column inside fresh,
      ReadsTo true (writeDouble split indent column inside fresh rest ++ '"' :: after) rest after)
    (hmore : ∀ rest', rest = ' ' :: rest' → ∀ column inside fresh,
      ReadsTo true (writeDouble split indent column inside fresh rest' ++ '"' :: after) rest'
        after) :
    ReadsTo true (foldMark indent rest.head?
      ++ (writeDouble split indent (foldColumn indent rest.head?) true true rest ++ '"' :: after))
      rest after := by
  -- spaces at the start of a line are skipped when it is read, so this one is escaped
  by_cases hspace : rest.head? = some ' '
  · obtain ⟨rest', rfl⟩ : ∃ rest', rest = ' ' :: rest' := by
      cases rest with
      | nil => cases hspace
      | cons c rest' =>
        cases hspace
        exact ⟨rest', rfl⟩
    have hletter : letterValue? ' ' = some ' ' := by decide
    have hread := (takes_fold hindent startsText_backslash).readsTo
      ((takes_letter hletter).readsTo (hmore rest' rfl (indent + 1 + 1) true false))
    rw [List.head?_cons, foldColumn, if_pos rfl, foldMark, if_pos rfl, writeDouble_space hwidth]
    simpa only [List.append_assoc, List.cons_append, List.nil_append, List.singleton_append]
      using hread
  · have hread := (takes_fold hindent (startsText_writeDouble hspace)).readsTo
      (hrest (foldColumn indent rest.head?) true true)
    rw [foldMark, if_neg hspace]
    simpa only [List.append_assoc, List.cons_append, List.nil_append, List.append_nil] using hread

/-- **A line that is folded before a character** which needs no escape goes on with it. -/
theorem readsTo_foldMark_cons (hindent : 0 < indent) (hnone : escape? ch = none)
    (hrest : ∀ column inside fresh,
      ReadsTo true (writeDouble split indent column inside fresh rest ++ '"' :: after) rest
        after) :
    ReadsTo true (foldMark indent (some ch) ++ (ch
      :: (writeDouble split indent (foldColumn indent (some ch) + 1) true false rest
        ++ '"' :: after))) (ch :: rest) after := by
  -- A line folded at a space needs a mark, or the space would be lost as indent.
  by_cases hspace : ch = ' '
  · subst hspace
    have hletter : letterValue? ' ' = some ' ' := by decide
    have hread := (takes_fold hindent startsText_backslash).readsTo
      ((takes_letter hletter).readsTo (hrest (foldColumn indent (some ' ') + 1) true false))
    rw [foldMark, if_pos rfl]
    simpa only [List.append_assoc, List.cons_append, List.nil_append] using hread
  · have hinert := inert_of_escape? hnone hspace
    have hread := (takes_fold hindent (startsText_of_inert hinert)).readsTo
      ((takes_inert hinert).readsTo (hrest (foldColumn indent (some ch) + 1) true false))
    rw [foldMark, if_neg (fun h => hspace (Option.some.inj h))]
    simpa only [List.append_assoc, List.cons_append, List.nil_append, List.append_nil] using hread

end Folds

theorem startsText_foldMark (indent : Nat) (first : Option Char) :
    StartsText (foldMark indent first ++ more) := startsText_backslash

/-- **Double quotes are read back.** The spaces before what is written come from the part that was
written before it. -/
theorem readsTo_writeDouble (split : Bool) {indent : Nat} (hindent : 0 < indent)
    (hwidth : indent + 1 ≤ lineWidth) (cs after : List Char) (k column : Nat)
    (inside fresh : Bool) :
    ReadsTo true
      (List.replicate k ' ' ++ (writeDouble split indent column inside fresh cs ++ '"' :: after))
      (List.replicate k ' ' ++ cs) after := by
  induction hn : cs.length using Nat.strongRecOn generalizing cs k column inside fresh with
  | _ n ih =>
    subst hn
    cases cs with
    | nil =>
      have hclose : ReadsTo true ('"' :: after) [] after := readsTo_close nofun
      exact hclose.spaces ⟨'"', rfl, rfl, rfl⟩ k
    | cons ch rest =>
      -- what is written for the rest, or for what follows its first space
      have hrest : ∀ column inside fresh,
          ReadsTo true (writeDouble split indent column inside fresh rest ++ '"' :: after) rest
            after :=
        fun column inside fresh =>
          ih rest.length (Nat.lt_succ_self _) rest 0 column inside fresh rfl
      have hmore : ∀ rest', rest = ' ' :: rest' → ∀ column inside fresh,
          ReadsTo true (writeDouble split indent column inside fresh rest' ++ '"' :: after) rest'
            after := by
        rintro rest' rfl column inside fresh
        refine ih rest'.length ?_ rest' 0 column inside fresh rfl
        simp only [List.length_cons]
        omega
      unfold writeDouble
      simp only
      split
      · -- the character is escaped
        next e he =>
        obtain ⟨e', rfl⟩ := exists_of_escape? he
        split
        · have hread := ((takes_of_escape? he).readsTo
            (readsTo_foldMark hindent hwidth hrest hmore)).spaces startsText_backslash k
          simpa only [List.append_assoc, List.cons_append, List.nil_append] using hread
        · have hread := ((takes_of_escape? he).readsTo
            (hrest (column + ('\\' :: e').length) true true)).spaces startsText_backslash k
          simpa only [List.append_assoc, List.cons_append, List.nil_append, List.singleton_append]
            using hread
      · -- the character stands for itself
        next hnone =>
        split
        · have hread := (readsTo_foldMark_cons hindent hnone hrest).spaces
            (startsText_foldMark indent (some ch)) k
          simpa only [List.append_assoc, List.cons_append] using hread
        · by_cases hspace : ch = ' '
          · -- one more space in front of the rest
            subst hspace
            have hmore := ih rest.length (Nat.lt_succ_self _) rest (k + 1) (column + 1) true false
              rfl
            simpa only [List.replicate_succ', List.append_assoc, List.cons_append, List.nil_append]
              using hmore
          · have hinert := inert_of_escape? hnone hspace
            have hread := (takes_inert hinert).readsTo (hrest (column + 1) true false)
            exact hread.spaces (startsText_of_inert hinert) k

end Yaml

end Lintel
