import Lintel.Proofs.Yaml.Written

/-!
# Steps of a layout

Where a layout comes upon a token behind a gap (`Layout.LeadsTo`), the token is read, and the layout
comes upon what stands behind the next gap. There is a lemma for each token that a block document
consists of: the end of a block (`reaches_close`), a key with its colon (`reaches_key`), the hyphen
of an element (`reaches_dash`) and a text in any of its styles (`reaches_text`). What a layout holds
besides its place is told by `Layout.Holds`, and `Layout.Reaches` joins the steps.
-/

namespace Lintel

namespace Yaml

namespace Layout

variable {l l' l'' : Layout} {ts : List Token} {indent : Int} {outer : List Int} {column : Nat}
  {rest : List Char} {lines : List (List Char)}

/-! ### What is scanned -/

/-- These tokens come out in the end, if the reader may take as many steps as characters are
left. -/
def Scans (l : Layout) (ts : List Token) : Prop :=
  ∀ fuel, l.cursor.rest.length < fuel → l.run fuel = ⟨ts, none⟩

/-- From one layout the same comes out as from the other. -/
def Reaches (l l' : Layout) : Prop :=
  ∀ ts, l'.Scans ts → l.Scans ts

theorem Reaches.trans (h : l.Reaches l') (h' : l'.Reaches l'') : l.Reaches l'' :=
  fun ts hts => h ts (h' ts hts)

theorem reaches_of_step (h : l.step = .ok (true, l'))
    (hlen : l'.cursor.rest.length < l.cursor.rest.length) : l.Reaches l' := by
  intro ts hts fuel hfuel
  obtain ⟨fuel, rfl⟩ : ∃ n, fuel = n + 1 := ⟨fuel - 1, by omega⟩
  rw [run, h]
  exact hts fuel (by omega)

theorem reaches_of_step_eq (h : l.step = l'.step)
    (hlen : l'.cursor.rest.length ≤ l.cursor.rest.length) : l.Reaches l' := by
  intro ts hts fuel hfuel
  obtain ⟨fuel, rfl⟩ : ∃ n, fuel = n + 1 := ⟨fuel - 1, by omega⟩
  have hrun := hts (fuel + 1) (by omega)
  rw [run, ← h] at hrun
  rw [run]
  -- the layouts may differ, but what is run after the step is the same
  cases hstep : l.step with
  | error e =>
    rw [hstep] at hrun
    simp only [Scan.mk.injEq] at hrun
    cases hrun.2
  | ok r =>
    rw [hstep] at hrun
    obtain ⟨more, next⟩ := r
    cases more with
    | false => exact hrun
    | true => exact hrun

/-! ### Coming upon a token -/

/-- What a layout holds besides its place: tokens, the newest first, and blocks. -/
structure Holds (l : Layout) (ts : List Token) (indent : Int) (outer : List Int) : Prop where
  tokens : l.tokens = ts
  count : l.count = ts.length
  indent : l.indent = indent
  outer : l.outer = outer
  level : l.level = 0

def arriveAt (l : Layout) (c : Cursor) : Layout :=
  { l with cursor := c, allowsKey := true, keys := [] }

/-- Nothing that might have been a key is on the line of the next token. -/
def Outdated (l : Layout) (lines : List (List Char)) : Prop :=
  ∀ k ∈ l.keys, k.required = false ∧
    (k.line < l.cursor.line ∨ lines ≠ [] ∧ k.line ≤ l.cursor.line)

/-- Behind a gap a token begins with these characters in a column. A key may begin there, and what
might have been one before is none. -/
def LeadsTo (l : Layout) (column : Nat) (rest : List Char) : Prop :=
  ∃ lines, l.cursor.LeadsTo lines column rest ∧ (l.allowsKey = true ∨ lines ≠ []) ∧
    l.Outdated lines

theorem length_gapChars (lines : List (List Char)) (n : Nat) :
    lines.length ≤ (gapChars lines n).length := by
  induction lines with
  | nil => exact Nat.zero_le _
  | cons line lines ih =>
    rw [gapChars_cons, List.length_append, List.length_cons, List.length_cons]
    omega

theorem inFlow_of_level (h : l.level = 0) : l.inFlow = false := by
  rw [inFlow, h]
  rfl

/-- What is true of a layout with no more than its tokens and its blocks changed. -/
structure SamePlace (l l' : Layout) : Prop where
  cursor : l'.cursor = l.cursor
  allowsKey : l'.allowsKey = l.allowsKey
  keys : l'.keys = l.keys
  level : l'.level = l.level

/-- **The place of the token** that is come upon. -/
theorem LeadsTo.exists_cursor (h : l.LeadsTo column rest) (hlevel : l.level = 0) :
    ∃ c : Cursor, c.rest = rest ∧ c.column = column ∧ rest.length ≤ l.cursor.rest.length ∧
      ∀ l', l.SamePlace l' →
        (skipGaps (l'.cursor.rest.length + 1) l').dropStale = .ok (l'.arriveAt c) := by
  obtain ⟨lines, ⟨hlines, hrest, n, hgap, hcolumn⟩, hallows, hkeys⟩ := h
  have hlen := length_gapChars lines n
  have hlen' : (gapChars lines n).length + rest.length = l.cursor.rest.length := by
    rw [hgap, List.length_append]
  have hfuel : lines.length < l.cursor.rest.length + 1 := by omega
  obtain ⟨c, hcrest, hnone, hsome, hskip⟩ := skipGaps_gap hgap hlines hrest hfuel
  refine ⟨c, hcrest, ?_, by omega, fun l' hl' => ?_⟩
  · by_cases h : lines = []
    · rw [if_pos h] at hcolumn
      rw [hnone h]
      exact hcolumn
    · rw [if_neg h] at hcolumn
      rw [(hsome h).2]
      exact hcolumn
  · have hflow : l'.inFlow = false := inFlow_of_level (hl'.level.trans hlevel)
    -- Keys were allowed before, or a line break in the gap allows them.
    have hallowed : (l'.allowsKey || (!lines.isEmpty && !l'.inFlow)) = true := by
      rcases hallows with h | h
      · rw [hl'.allowsKey, h]
        rfl
      · rw [hflow, List.isEmpty_eq_false_iff.mpr h]
        exact Bool.or_true _
    -- Where nothing is skipped the key is of an earlier line, and else the gap leaves its line.
    have hline : ∀ k ∈ l.keys, k.line ≠ c.line := by
      intro k hk
      by_cases h : lines = []
      · have hlt := (hkeys k hk).2.resolve_right fun h' => h'.1 h
        rw [hnone h]
        exact Nat.ne_of_lt hlt
      · have hlt := (hsome h).1
        rcases (hkeys k hk).2 with h' | ⟨-, h'⟩
        · omega
        · omega
    rw [hl'.cursor, hskip l' hl'.cursor, hallowed]
    -- all keys are stale, and none of them was required
    have hrequired : (l'.keys.any fun k => isStale { l' with cursor := c, allowsKey := true } k
        && k.required) = false := by
      rw [List.any_eq_false, hl'.keys]
      intro k hk
      rw [(hkeys k hk).1, Bool.and_false]
      exact Bool.false_ne_true
    have hstale : (l'.keys.filter fun k => !isStale { l' with cursor := c, allowsKey := true } k)
        = [] := by
      rw [List.filter_eq_nil_iff, hl'.keys]
      intro k hk
      have hne : (k.line != c.line) = true := bne_iff_ne.mpr (hline k hk)
      rw [isStale, hne]
      exact Bool.false_ne_true
    rw [dropStale]
    simp only
    rw [hrequired, hstale]
    rfl

theorem unwind_of_le {column : Int} (hlevel : l.level = 0) (h : l.indent ≤ column) :
    l.unwind column = l := by
  rw [unwind, inFlow_of_level hlevel, if_neg Bool.false_ne_true, closeBlocks, if_neg (by omega)]

/-- **The token that is come upon** in a block that does not end before it. -/
theorem approach_of_leadsTo (hl : l.Holds ts indent outer) (h : l.LeadsTo column rest)
    (hcolumn : indent ≤ column) :
    ∃ c : Cursor, c.rest = rest ∧ c.column = column ∧ rest.length ≤ l.cursor.rest.length ∧
      l.approach = .ok (l.arriveAt c) := by
  obtain ⟨c, hrest, hcol, hlen, hdrop⟩ := h.exists_cursor hl.level
  refine ⟨c, hrest, hcol, hlen, ?_⟩
  -- the block is not to the right of the token, so none is closed
  have hunwind : (l.arriveAt c).unwind (l.arriveAt c).column = l.arriveAt c := by
    refine unwind_of_le hl.level ?_
    change l.indent ≤ (c.column : Int)
    rw [hl.indent, hcol]
    exact hcolumn
  rw [approach, hdrop l ⟨rfl, rfl, rfl, rfl⟩]
  change Except.ok ((l.arriveAt c).unwind (l.arriveAt c).column) = _
  rw [hunwind]

theorem step_of_read {ch : Char} (h : l.approach = .ok l') (hpeek : l'.cursor.peek = some ch)
    (hread : l'.read ch = .ok l'') : l.step = .ok (true, l'') := by
  rw [step, h]
  simp only [bind, Except.bind, hpeek, hread]
  rfl

theorem step_of_end (h : l.approach = .ok l') (hpeek : l'.cursor.peek = none)
    (hbreak : l'.breakOff = .ok l'') : l.step = .ok (false, l'') := by
  rw [step, h]
  simp only [bind, Except.bind, hpeek, hbreak]
  rfl

/-! ### The end of a block -/

/-- **A block ends** before a token to the left of it. -/
theorem reaches_close {o : Int} (hl : l.Holds ts indent (o :: outer)) (h : l.LeadsTo column rest)
    (hcolumn : column < indent) :
    ∃ l', l.Reaches l' ∧ l'.Holds (.close :: ts) o outer ∧ l'.LeadsTo column rest := by
  obtain ⟨c, hrest, hcol, hlen, hdrop⟩ := h.exists_cursor hl.level
  let l' : Layout := { l.push .close with indent := o, outer := outer }
  have hlevel : l'.level = 0 := hl.level
  have happroach : l.approach = l'.approach := by
    -- the block is closed on the way to the token, or has been closed already
    have hunwind : (l.arriveAt c).unwind c.column = (l'.arriveAt c).unwind c.column := by
      have hlt : (c.column : Int) < (l.arriveAt c).indent := by
        change (c.column : Int) < l.indent
        rw [hl.indent, hcol]
        exact hcolumn
      have houter : (l.arriveAt c).outer = o :: outer := hl.outer
      rw [unwind, unwind, inFlow_of_level (l := l.arriveAt c) hl.level,
        inFlow_of_level (l := l'.arriveAt c) hlevel,
        if_neg Bool.false_ne_true, if_neg Bool.false_ne_true, closeBlocks, if_pos hlt, houter]
      rfl
    rw [approach, approach, hdrop l ⟨rfl, rfl, rfl, rfl⟩, hdrop l' ⟨rfl, rfl, rfl, rfl⟩]
    exact congrArg Except.ok hunwind
  refine ⟨l', reaches_of_step_eq ?_ (Nat.le_refl _), ⟨?_, ?_, rfl, rfl, hlevel⟩, h⟩
  · rw [step, step, happroach]
  · exact congrArg (Token.close :: ·) hl.tokens
  · exact congrArg (· + 1) hl.count

/-! ### Elements -/

/-- **The hyphen of an element** in a block that began at its column, and a space after it. -/
theorem reaches_dash (hl : l.Holds ts indent outer) (h : l.LeadsTo column ('-' :: ' ' :: rest))
    (hindent : indent = column) (hcolumn : 0 < column) (hrest : StartsContent rest) :
    ∃ l', l.Reaches l' ∧ l'.Holds (.dash :: ts) indent outer ∧ l'.LeadsTo (column + 2) rest := by
  obtain ⟨c, hc, hcol, hlen, happroach⟩ := approach_of_leadsTo hl h (Int.le_of_eq hindent)
  have hskip := Cursor.next_flat hc (by decide)
  let l' : Layout := { (l.arriveAt c).push .dash with cursor := c.skip 1 }
  have hread : (l.arriveAt c).read '-' = .ok l' := by
    have hflow : (l.arriveAt c).inFlow = false := inFlow_of_level hl.level
    -- the list was opened at this column, so the hyphen opens no other one
    have hopen : (l.arriveAt c).openBlock .openList = l.arriveAt c := by
      have hnot : ¬ (l.arriveAt c).indent < (l.arriveAt c).column := by
        change ¬ l.indent < (c.column : Int)
        rw [hl.indent, hcol, hindent]
        exact Int.lt_irrefl _
      rw [openBlock, indentTo?, if_neg hnot]
    have hleft : ((l.arriveAt c).cursor.column == 0) = false := by
      change (c.column == 0) = false
      rw [hcol, beq_eq_false_iff_ne]
      omega
    have hgap : isGap ((l.arriveAt c).cursor.peekAt 1) = true := by
      change isGap c.rest[1]? = true
      rw [hc]
      rfl
    -- none of the marks of a document or a directive is here, so the hyphen is that of an element
    have hdash : (l.arriveAt c).read '-' = (l.arriveAt c).dash := by
      unfold read
      simp only [hleft, Bool.and_false, Bool.false_and, Bool.false_eq_true, if_false, hgap,
        decide_true, Bool.and_self, if_true]
      rfl
    rw [hdash, dash, beginAt, hflow, if_neg Bool.false_ne_true, hopen]
    rfl
  have hpeek : c.peek = some '-' := Cursor.peek_cons hc
  refine ⟨l', reaches_of_step (step_of_read happroach hpeek hread) ?_,
    ⟨?_, ?_, hl.indent, hl.outer, hl.level⟩, ?_⟩
  · change (c.skip 1).rest.length < _
    rw [Cursor.rest_skip, hc]
    simp only [List.length_cons] at hlen
    simp only [List.drop_succ_cons, List.drop_zero, List.length_cons]
    omega
  · exact congrArg (Token.dash :: ·) hl.tokens
  · exact congrArg (· + 1) hl.count
  · -- the space after the hyphen is the gap, and no line break is in it
    refine ⟨[], ⟨fun line hline => absurd hline List.not_mem_nil, hrest, 1, ?_, ?_⟩, .inl rfl,
      fun k hk => absurd hk List.not_mem_nil⟩
    · change c.next.rest = _
      rw [hskip]
      rfl
    · change c.next.column + 1 = column + 2
      rw [hskip, hcol]

/-! ### Texts -/

/-- The layout at a place where something begins that may turn out to be a key. -/
def remembering (l : Layout) (c : Cursor) : Layout :=
  { l.arriveAt c with
    keys := [⟨l.level, l.count, !l.inFlow && l.indent == (c.column : Int), c.index, c.line,
      c.column⟩] }

def afterText (l : Layout) (c : Cursor) (t : Token) (broken : Bool) (c' : Cursor) : Layout :=
  { (l.remembering c).push t with cursor := c', allowsKey := broken }

theorem rememberKey_arriveAt (l : Layout) (c : Cursor) :
    (l.arriveAt c).rememberKey = .ok (l.remembering c) := rfl

theorem leaf_arriveAt {read : Cursor → Except Error (Token × Cursor)} {c c' : Cursor} {t : Token}
    (h : read c = .ok (t, c')) : (l.arriveAt c).leaf read = .ok (l.afterText c t false c') := by
  rw [leaf, rememberKey_arriveAt]
  change (read c >>= _) = _
  rw [h]
  rfl

theorem plainScalar_arriveAt {c c' : Cursor} {t : Token} {broken : Bool} (hlevel : l.level = 0)
    (h : readPlain false (l.indent + 1) c = (t, broken, c')) :
    (l.arriveAt c).plainScalar = .ok (l.afterText c t broken c') := by
  have hread : readPlain (l.remembering c).inFlow ((l.remembering c).indent + 1)
      (l.remembering c).cursor = (t, broken, c') := by
    rw [inFlow_of_level (l := l.remembering c) hlevel]
    exact h
  rw [plainScalar, rememberKey_arriveAt]
  simp only [bind, Except.bind, hread]
  rfl

theorem holds_afterText {c c' : Cursor} {t : Token} {broken : Bool} (hl : l.Holds ts indent outer) :
    (l.afterText c t broken c').Holds (t :: ts) indent outer :=
  ⟨congrArg (t :: ·) hl.tokens, congrArg (· + 1) hl.count, hl.indent, hl.outer, hl.level⟩

theorem read_plain {ch : Char} (hlevel : l.level = 0) (hlead : leadingMarks.contains ch = false)
    (hgap : isGap (some ch) = false)
    (hmark : ch = '?' ∨ ch = ':' ∨ ch = '-' → isGap (l.cursor.peekAt 1) = false)
    (hleft : l.cursor.column = 0 → l.cursor.atAnyMark = false) : l.read ch = l.plainScalar := by
  have hflow := inFlow_of_level hlevel
  have hnot : ∀ m ∈ leadingMarks, ch ≠ m := by
    rintro m hm rfl
    rw [List.contains_iff_mem.mpr hm] at hlead
    cases hlead
  have hpercent : ch ≠ '%' := hnot _ (by decide)
  have hbar : ch ≠ '|' := hnot _ (by decide)
  have hangle : ch ≠ '>' := hnot _ (by decide)
  have hmark' : ∀ m, (m = '?' ∨ m = ':' ∨ m = '-') →
      (decide (ch = m) && isGap (l.cursor.peekAt 1)) = false := by
    intro m hm
    by_cases h : ch = m
    · subst h
      rw [hmark hm, Bool.and_false]
    · rw [decide_eq_false h, Bool.false_and]
  have hismark : l.isMark = isGap (l.cursor.peekAt 1) := by
    rw [isMark, hflow, Bool.false_or]
  have hnoMark : (l.cursor.column == 0 && l.cursor.atMark '-') = false ∧
      (l.cursor.column == 0 && l.cursor.atMark '.') = false := by
    by_cases h : l.cursor.column = 0
    · have hany := hleft h
      rw [Cursor.atAnyMark, Bool.or_eq_false_iff] at hany
      rw [hany.1, hany.2, Bool.and_false]
      exact ⟨rfl, rfl⟩
    · rw [beq_eq_false_iff_ne.mpr h]
      exact ⟨rfl, rfl⟩
  have hstart : l.startsPlain ch = true := by
    have hall : plainBarred.all (fun m => decide (m ∈ leadingMarks ∨ m = '?' ∨ m = ':' ∨ m = '-'))
        = true := by decide
    have hbarred : ∀ m ∈ plainBarred, m ∈ leadingMarks ∨ m = '?' ∨ m = ':' ∨ m = '-' :=
      fun m hm => of_decide_eq_true (List.all_eq_true.mp hall m hm)
    rw [startsPlain, hgap, Bool.false_or, Bool.or_eq_true]
    by_cases h : ch ∈ plainBarred
    · -- a mark that means nothing before a word
      have hch := (hbarred ch h).resolve_left fun hmem => hnot ch hmem rfl
      right
      rw [hmark hch, hflow]
      rcases hch with rfl | rfl | rfl <;> rfl
    · left
      rw [Bool.not_eq_true', List.contains_eq_mem, decide_eq_false h]
  unfold read
  simp only [hnoMark.1, hnoMark.2, hpercent, decide_false, Bool.false_and, Bool.false_eq_true,
    if_false, hbar, hangle, hstart, if_true, hismark, hmark' '-' (.inr (.inr rfl)),
    hmark' '?' (.inl rfl), hmark' ':' (.inr (.inl rfl))]
  split
  all_goals first | exact absurd rfl (hnot _ (by decide)) | rfl

section Text

variable {c : Cursor} {s : String} {n k : Nat}

/-- What comes after a text: past a line break there is a gap, with a token behind it. -/
def EndsText (c c' : Cursor) (broken : Bool) (k : Nat) (rest : List Char) : Prop :=
  c'.rest.length < c.rest.length ∧ ∃ lines, c'.LeadsTo lines k rest ∧
    (broken = true ∧ c.line < c'.line ∨ lines ≠ [] ∧ c.line ≤ c'.line)

theorem endsText_quoted {c' : Cursor} (hlines : ∀ line ∈ lines, IsRemark line)
    (hrest : StartsContent rest) (hc' : c'.rest = '\n' :: (gapChars lines k ++ rest))
    (hline : c.line ≤ c'.line) (hlen : c'.rest.length < c.rest.length) :
    EndsText c c' false k rest := by
  refine ⟨hlen, [] :: lines, ⟨fun line hline => ?_, hrest, k, ?_, ?_⟩,
    .inr ⟨List.cons_ne_nil _ _, hline⟩⟩
  · -- the empty line is the end of the line with the quote
    rcases List.mem_cons.mp hline with rfl | hline
    · exact ⟨.inl rfl, fun ch hch => absurd hch List.not_mem_nil⟩
    · exact hlines line hline
  · rw [hc', gapChars_cons]
    rfl
  · rw [if_neg (List.cons_ne_nil _ _)]

/-- **A text between quotes is read** with the quotes around it. -/
theorem exists_read_quoted (double : Bool) {text : List Char}
    (hlines : ∀ line ∈ lines, IsRemark line) (hrest : StartsContent rest)
    (hcolumn : 0 < c.column) (hc : c.rest = (if double then '"' else '\'') :: text)
    (hlen : ('\n' :: (gapChars lines k ++ rest)).length ≤ text.length)
    (hreads : ReadsTo double text s.toList ('\n' :: (gapChars lines k ++ rest))) :
    ∃ ch broken c', c.peek = some ch ∧
      (l.arriveAt c).read ch = .ok (l.afterText c (.scalar s false) broken c') ∧
      EndsText c c' broken k rest := by
  -- not in the first column, where a mark between documents could stand
  have hleft : ((l.arriveAt c).cursor.column == 0) = false := by
    rw [beq_eq_false_iff_ne]
    exact Nat.ne_of_gt hcolumn
  obtain ⟨c', hread, hafter, hline⟩ := hreads.readQuoted hc
  rw [String.ofList_toList] at hread
  refine ⟨if double then '"' else '\'', false, c', Cursor.peek_cons hc, ?_,
    endsText_quoted hlines hrest hafter hline ?_⟩
  · rw [← leaf_arriveAt hread]
    unfold read
    cases double with
    | false => simp only [hleft, Bool.and_false, Bool.false_and, Bool.false_eq_true, if_false]
    | true =>
      simp only [hleft, Bool.and_false, Bool.false_and, Bool.false_eq_true, if_false, if_true]
  · rw [hafter, hc]
    exact Nat.lt_succ_of_le hlen

/-- **A text is read** in the style in which it is written. -/
theorem exists_read_text (hlevel : l.level = 0) (hlines : ∀ line ∈ lines, IsRemark line)
    (hrest : StartsContent rest) (hmark : NoMark k rest) (hk : k < l.indent + 1)
    (hc : c.rest = (writeText false n column s).toList ++ '\n' :: (gapChars lines k ++ rest))
    (hcolumn : 0 < c.column) (hindent : l.indent < c.column) (hn : 0 < n) (hleast : l.indent < n)
    (hwidth : n + 1 ≤ lineWidth) :
    ∃ ch broken c', c.peek = some ch ∧
      (l.arriveAt c).read ch
        = .ok (l.afterText c (.scalar s (fitsPlain s.toList)) broken c') ∧
      EndsText c c' broken k rest := by
  rcases writeText_cases false n column s with ⟨hfits, h⟩ | ⟨hplain, hfits, h⟩ | ⟨hplain, h⟩
  · -- without quotes
    rw [h] at hc
    obtain ⟨ch, hpeek, hlead, hgap, hnext⟩ := hfits.exists_head hc
    have hleast : l.indent + 1 ≤ n := by omega
    obtain ⟨c', hread, hline, hlen, lines', hleads⟩ := plainRest_writeRuns hn hleast
      (endsPlain_gap hlines hrest hmark hk) hfits.isPlainRuns hc (by omega) (Nat.lt_succ_self _)
      false []
    rw [runChars_runsOf, List.nil_append] at hread
    have hscalar : readPlain false (l.indent + 1) c = (.scalar s true, true, c') := by
      rw [readPlain, hread]
      simp only [String.ofList_toList]
    refine ⟨ch, true, c', hpeek, ?_, ?_, lines', hleads, .inl ⟨rfl, hline⟩⟩
    · have hinside : c.column = 0 → (l.arriveAt c).cursor.atAnyMark = false :=
        fun h => absurd h (Nat.ne_of_gt hcolumn)
      rw [fitsPlain_iff.mpr hfits, read_plain (l := l.arriveAt c) hlevel hlead hgap hnext hinside]
      exact plainScalar_arriveAt hlevel hscalar
    · rw [hc, List.length_append]
      omega
  · -- in single quotes
    obtain ⟨hinked, hspace, hfeed⟩ := fitsSingle_iff.mp hfits
    rw [← runChars_runsOf s.toList] at hinked
    have hafter : ('\n' :: (gapChars lines k ++ rest)).head? ≠ some '\'' :=
      fun h => absurd (Option.some.inj h) (by decide)
    have hreads := readsTo_writeRuns true hn hafter (separated_runsOf hspace hfeed) hinked
      (column + 1) false
    rw [runChars_runsOf, ← runsOf_doubleQuotes] at hreads
    rw [hplain]
    refine exists_read_quoted false hlines hrest hcolumn ?_ ?_ hreads
    · rw [hc, h, List.cons_append, List.append_assoc]
      rfl
    · simp only [List.length_append, List.length_cons]
      omega
  · -- in double quotes
    have hreads := readsTo_writeDouble true hn hwidth s.toList
      ('\n' :: (gapChars lines k ++ rest)) 0 (column + 1) false true
    rw [hplain]
    refine exists_read_quoted true hlines hrest hcolumn ?_ ?_ hreads
    · rw [hc, h, List.cons_append, List.append_assoc]
      rfl
    · simp only [List.replicate_zero, List.nil_append, List.length_append, List.length_cons]
      omega

/-- After a text a token is come upon, unless the text is required to be a key. -/
theorem leadsTo_afterText {t : Token} {broken : Bool} {c' : Cursor} (hindent : l.indent < c.column)
    (h : EndsText c c' broken k rest) :
    (l.afterText c t broken c').LeadsTo k rest := by
  obtain ⟨-, lines, hleads, hline⟩ := h
  refine ⟨lines, hleads, ?_, fun key hkey => ?_⟩
  · rcases hline with ⟨hbroken, -⟩ | ⟨hne, -⟩
    · exact .inl hbroken
    · exact .inr hne
  · obtain rfl := List.mem_singleton.mp hkey
    -- the text is to the right of its block, where no key is required
    have hnot : (l.indent == (c.column : Int)) = false := by
      rw [beq_eq_false_iff_ne]
      omega
    refine ⟨?_, ?_⟩
    · change (!l.inFlow && l.indent == (c.column : Int)) = false
      rw [hnot, Bool.and_false]
    · change c.line < c'.line ∨ lines ≠ [] ∧ c.line ≤ c'.line
      rcases hline with ⟨-, hlt⟩ | h
      · exact .inl hlt
      · exact .inr h

/-- **The text of an element** in a block to the left of it. -/
theorem reaches_text {column' : Nat} (hl : l.Holds ts indent outer)
    (h : l.LeadsTo column
      ((writeText false n column' s).toList ++ '\n' :: (gapChars lines k ++ rest)))
    (hcolumn : 0 < column) (hindent : indent < column) (hn : 0 < n) (hleast : indent < n)
    (hwidth : n + 1 ≤ lineWidth) (hlines : ∀ line ∈ lines, IsRemark line)
    (hrest : StartsContent rest) (hmark : NoMark k rest) (hk : k < indent + 1) :
    ∃ l', l.Reaches l' ∧ l'.Holds (.scalar s (fitsPlain s.toList) :: ts) indent outer ∧
      l'.LeadsTo k rest := by
  obtain ⟨c, hc, hcol, hlen, happroach⟩ := approach_of_leadsTo hl h (Int.le_of_lt hindent)
  have hindent' : l.indent < c.column := by
    rw [hl.indent, hcol]
    exact hindent
  obtain ⟨ch, broken, c', hpeek, hread, hends⟩ := exists_read_text hl.level hlines hrest hmark
    (by rw [hl.indent]; exact hk) hc (by omega) hindent' hn (by rw [hl.indent]; exact hleast) hwidth
  refine ⟨_, reaches_of_step (step_of_read happroach hpeek hread) ?_, holds_afterText hl,
    leadsTo_afterText hindent' hends⟩
  -- The reading took at least one character, which is what the fuel of the steps counts.
  have hlt := hends.1
  rw [hc] at hlt
  exact Nat.lt_of_lt_of_le hlt hlen

end Text

/-! ### Keys -/

theorem approach_colon {key after : List Char} (hkey : IsKey key) {c : Cursor} {t : Token}
    (hlevel : l.level = 0) (hindent : l.indent ≤ c.column)
    (hc : c.rest = key ++ ':' :: '\n' :: after) :
    (l.afterText c t false (c.skip key.length)).approach
      = .ok (l.afterText c t false (c.skip key.length)) := by
  have hskip := Cursor.skip_flat hc hkey.word.flat
  let l' := l.afterText c t false (c.skip key.length)
  have hstart : StartsContent (':' :: '\n' :: after) := by
    intro ch hch
    cases hch
    decide
  have hcolon : (c.skip key.length).rest = gapChars [] 0 ++ (':' :: '\n' :: after) := by
    rw [hskip]
    rfl
  -- there is no gap
  have hgaps : skipGaps (l'.cursor.rest.length + 1) l' = l' := by
    obtain ⟨c', -, hnone, -, hgaps⟩ := skipGaps_gap hcolon
      (fun line hline => absurd hline List.not_mem_nil) hstart (Nat.succ_pos l'.cursor.rest.length)
    have hsame : c' = c.skip key.length := by
      rw [hnone rfl, hskip]
      rfl
    rw [hgaps l' rfl, hsame]
    rfl
  -- the key is on this line and not far away
  have hstale : ∀ k ∈ l'.keys, l'.isStale k = false := by
    intro k hk
    obtain rfl := List.mem_singleton.mp hk
    change (c.line != (c.skip key.length).line
      || decide (keyReach < (c.skip key.length).index - c.index)) = false
    have hshort := hkey.short
    rw [hskip, Bool.or_eq_false_iff, bne_eq_false_iff_eq, decide_eq_false_iff_not]
    exact ⟨rfl, by simp only; omega⟩
  have hdrop : l'.dropStale = .ok l' := by
    have hnone : (l'.keys.any fun k => l'.isStale k && k.required) = false := by
      rw [List.any_eq_false]
      intro k hk
      rw [hstale k hk, Bool.false_and]
      exact Bool.false_ne_true
    have hall : (l'.keys.filter fun k => !l'.isStale k) = l'.keys := by
      refine List.filter_eq_self.mpr fun k hk => ?_
      rw [hstale k hk]
      rfl
    rw [dropStale, hnone, hall]
    rfl
  have hunwind : l'.unwind l'.column = l' := by
    refine unwind_of_le hlevel ?_
    change l.indent ≤ ((c.skip key.length).column : Int)
    rw [hskip]
    simp only
    omega
  rw [approach, hgaps, hdrop]
  change Except.ok (l'.unwind l'.column) = _
  rw [hunwind]

theorem insert_last {t : Token} (h : l.tokens = t :: ts) (hcount : l.count = ts.length + 1)
    (new : List Token) :
    l.insert ts.length new
      = { l with tokens := t :: (new.reverse ++ ts), count := ts.length + 1 + new.length } := by
  have hone : ts.length + 1 - ts.length = 1 := by omega
  unfold insert
  rw [h, hcount, hone]
  rfl

theorem colonAfter_last {t : Token} {k : PossibleKey} (hlevel : l.level = 0)
    (htokens : l.tokens = t :: ts) (hcount : l.count = ts.length + 1)
    (hbefore : k.before = ts.length) (hkeys : ∀ k' ∈ l.keys, k'.level = l.level) :
    colonAfter k l = { l with
      keys := []
      allowsKey := false
      tokens := t :: .key :: ((if l.indent < k.column then [.openMap] else []) ++ ts)
      count := ts.length + 2 + if l.indent < k.column then 1 else 0
      indent := if l.indent < k.column then k.column else l.indent
      outer := if l.indent < k.column then l.indent :: l.outer else l.outer } := by
  -- the key that was found is the only one that was remembered
  have hnone : l.keys.filter (fun k' => k'.level != l.level) = [] := by
    rw [List.filter_eq_nil_iff]
    intro k' hk'
    rw [hkeys k' hk', bne_self_eq_false]
    exact Bool.false_ne_true
  have hflow : ¬ inFlow { l with keys := [], allowsKey := false } = true := by
    rw [inFlow_of_level (l := { l with keys := [], allowsKey := false }) hlevel]
    exact Bool.false_ne_true
  unfold colonAfter
  simp only [hnone]
  rw [if_neg hflow, indentTo?]
  -- only a key to the right of its block opens another one
  by_cases h : l.indent < k.column
  · simp only [if_pos h]
    rw [hbefore, insert_last (l := { l with
      keys := [], allowsKey := false, indent := k.column, outer := l.indent :: l.outer })
      htokens hcount]
    rfl
  · simp only [if_neg h]
    rw [hbefore, insert_last (l := { l with keys := [], allowsKey := false }) htokens hcount]
    rfl

theorem reaches_keyText {key after : List Char} (hkey : IsKey key) {c : Cursor}
    (hlevel : l.level = 0) (happroach : l.approach = .ok (l.arriveAt c))
    (hc : c.rest = key ++ ':' :: '\n' :: after) (hlen : c.rest.length ≤ l.cursor.rest.length) :
    l.Reaches (l.afterText c (.scalar (String.ofList key) true) false (c.skip key.length)) := by
  obtain ⟨ch, hhead, hgap, -⟩ := hkey.word.head
  obtain ⟨hlead, hquestion, hcolon, hdash, hpoint⟩ := hkey.letter ch hhead
  have hpeek : c.peek = some ch := by
    rw [Cursor.peek, hc, hkey.word.head?_append, hhead]
  -- the first character of a key is no mark, nor is it that of a document
  have hmark : ch = '?' ∨ ch = ':' ∨ ch = '-' → isGap (c.peekAt 1) = false := by
    rintro (h | h | h)
    · exact absurd h hquestion
    · exact absurd h hcolon
    · exact absurd h hdash
  have hleft : c.column = 0 → c.atAnyMark = false :=
    fun _ => atAnyMark_of_head? (Cursor.forall_head? hpeek ⟨hdash, hpoint⟩)
  refine reaches_of_step (step_of_read happroach hpeek ?_) ?_
  · rw [read_plain (l := l.arriveAt c) hlevel hlead hgap hmark hleft]
    exact plainScalar_arriveAt hlevel (readPlain_key hkey hc)
  · have hpos := List.length_pos_iff.mpr hkey.word.ne_nil
    change (c.skip key.length).rest.length < _
    rw [hc] at hlen
    rw [Cursor.rest_skip, List.length_drop, hc]
    simp only [List.length_append, List.length_cons] at hlen ⊢
    omega

/-- The key that a text at a place may turn out to be. -/
def keyAt (l : Layout) (c : Cursor) : PossibleKey :=
  ⟨l.level, l.count, !l.inFlow && l.indent == (c.column : Int), c.index, c.line, c.column⟩

theorem step_colon {key after : List Char} (hkey : IsKey key) {c : Cursor} {t : Token}
    (hlevel : l.level = 0) (hindent : l.indent ≤ c.column)
    (hc : c.rest = key ++ ':' :: '\n' :: after) :
    (l.afterText c t false (c.skip key.length)).step
      = .ok (true, take 1 .value
        (colonAfter (l.keyAt c) (l.afterText c t false (c.skip key.length)))) := by
  have hskip := Cursor.skip_flat hc hkey.word.flat
  let l₁ := l.afterText c t false (c.skip key.length)
  -- the key has moved the cursor away from the first column
  have hleft : (l₁.cursor.column == 0) = false := by
    have hpos := List.length_pos_iff.mpr hkey.word.ne_nil
    change ((c.skip key.length).column == 0) = false
    rw [hskip, beq_eq_false_iff_ne]
    simp only
    omega
  -- a line feed comes after the colon, so the colon is a mark
  have hismark : l₁.isMark = true := by
    have hnext : l₁.cursor.peekAt 1 = some '\n' := by
      change (c.skip key.length).rest[1]? = _
      rw [hskip]
      rfl
    rw [isMark, hnext]
    exact Bool.or_true _
  have hread : l₁.read ':' = l₁.colon := by
    unfold read
    simp only [hleft, Bool.and_false, Bool.false_and, Bool.false_eq_true, if_false, hismark,
      decide_true, Bool.and_self, if_true]
    rfl
  have hpeek : l₁.cursor.peek = some ':' := by
    change (c.skip key.length).rest.head? = _
    rw [hskip]
    rfl
  have hfind : l₁.keys.find? (·.level == l₁.level) = some (l.keyAt c) :=
    List.find?_cons_of_pos (beq_self_eq_true l.level)
  refine step_of_read (approach_colon hkey hlevel hindent hc) hpeek ?_
  rw [hread, colon, hfind]

/-- **A key and its colon.** A key to the right of the block opens a block of its own. -/
theorem reaches_key {key : List Char} {k : Nat} (hl : l.Holds ts indent outer)
    (h : l.LeadsTo column (key ++ ':' :: '\n' :: (gapChars lines k ++ rest))) (hkey : IsKey key)
    (hindent : indent ≤ column) (hlines : ∀ line ∈ lines, IsRemark line)
    (hrest : StartsContent rest) :
    ∃ l', l.Reaches l' ∧
      l'.Holds (.value :: .scalar (String.ofList key) true :: .key
        :: ((if indent < column then [.openMap] else []) ++ ts)) column
        (if indent < column then indent :: outer else outer) ∧
      l'.LeadsTo k rest := by
  obtain ⟨c, hc, hcol, hlen, happroach⟩ := approach_of_leadsTo hl h hindent
  have hskip := Cursor.skip_flat hc hkey.word.flat
  let t : Token := .scalar (String.ofList key) true
  let l₁ := l.afterText c t false (c.skip key.length)
  let l₂ := take 1 .value (colonAfter (l.keyAt c) l₁)
  have hindent' : l.indent ≤ c.column := by
    rw [hl.indent, hcol]
    exact hindent
  have hfirst : l.Reaches l₁ := reaches_keyText hkey hl.level happroach hc (by rwa [hc])
  have hafter : l₂ = take 1 .value { l₁ with
      keys := []
      allowsKey := false
      tokens := t :: .key :: ((if l.indent < c.column then [.openMap] else []) ++ ts)
      count := ts.length + 2 + if l.indent < c.column then 1 else 0
      indent := if l.indent < c.column then c.column else l.indent
      outer := if l.indent < c.column then l.indent :: l.outer else l.outer } := by
    refine congrArg (take 1 .value) (colonAfter_last hl.level (congrArg (t :: ·) hl.tokens)
      (congrArg (· + 1) hl.count) hl.count fun k' hk' => ?_)
    obtain rfl := List.mem_singleton.mp hk'
    rfl
  rw [hl.indent, hl.outer, hcol] at hafter
  have hend : l₂.cursor.rest = '\n' :: (gapChars lines k ++ rest) := by
    rw [hafter]
    change ((c.skip key.length).skip 1).rest = _
    rw [Cursor.rest_skip, hskip]
    rfl
  refine ⟨l₂, hfirst.trans (reaches_of_step (step_colon hkey hl.level hindent' hc) ?_), ?_, ?_⟩
  · rw [hend]
    change _ < (c.skip key.length).rest.length
    rw [hskip]
    exact Nat.lt_succ_self _
  · rw [hafter]
    refine ⟨rfl, ?_, ?_, rfl, hl.level⟩
    · change ts.length + 2 + (if indent < column then 1 else 0) + 1 = _
      by_cases h : indent < column
      · simp [if_pos h]
      · simp [if_neg h]
    · change (if indent < column then (column : Int) else indent) = column
      by_cases h : indent < column
      · rw [if_pos h]
      · rw [if_neg h]
        omega
  · -- what is left of the line is an empty line of the gap
    refine ⟨[] :: lines, ⟨fun line hline => ?_, hrest, k, ?_, ?_⟩, .inr (List.cons_ne_nil _ _),
      fun k' hk' => ?_⟩
    · rcases List.mem_cons.mp hline with rfl | hline
      · exact ⟨.inl rfl, fun ch hch => absurd hch List.not_mem_nil⟩
      · exact hlines line hline
    · rw [hend, gapChars_cons]
      rfl
    · rw [if_neg (List.cons_ne_nil _ _)]
    · rw [hafter] at hk'
      exact absurd hk' List.not_mem_nil

/-! ### The end of a document -/

/-- **At the end** of a document the outermost block ends. -/
theorem scans_end (hl : l.Holds ts 0 [-1]) (h : l.LeadsTo 0 []) :
    l.Scans (ts.reverse ++ [.close]) := by
  intro fuel hfuel
  obtain ⟨fuel, rfl⟩ : ∃ n, fuel = n + 1 := ⟨fuel - 1, by omega⟩
  obtain ⟨c, hc, -, -, happroach⟩ := approach_of_leadsTo hl h (Int.le_refl 0)
  have hpeek : (l.arriveAt c).cursor.peek = none := by
    change c.rest.head? = none
    rw [hc]
    rfl
  -- one block is left to be closed, and outside of it there is none
  have hunwind : (l.arriveAt c).unwind (-1)
      = { (l.arriveAt c).push .close with indent := -1, outer := [] } := by
    have hindent : (l.arriveAt c).indent = 0 := hl.indent
    have houter : (l.arriveAt c).outer = [-1] := hl.outer
    rw [unwind, inFlow_of_level (l := l.arriveAt c) hl.level, if_neg Bool.false_ne_true,
      closeBlocks, hindent, if_pos (by decide), houter]
    rfl
  have hbreak : (l.arriveAt c).breakOff
      = .ok { (l.arriveAt c).push .close with indent := -1, outer := [], allowsKey := false } := by
    rw [breakOff, hunwind]
    rfl
  rw [run, step_of_end happroach hpeek hbreak]
  change (⟨(Token.close :: l.tokens).reverse, none⟩ : Scan) = _
  rw [hl.tokens, List.reverse_cons]

end Layout

end Yaml

end Lintel
