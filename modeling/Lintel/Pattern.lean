/-!
# Wildcard patterns

A pattern is a list of parts: `*` stands for any characters, `?` for any one character, a set in
square brackets for one character in it (or not in it, when the set starts with `!`), and every
other character for itself. A wildcard crosses `/` like any other character, and there is no way
to quote one. An opening bracket without a closing one stands for itself; a closing bracket right
after the opening one, or after its `!`, belongs to the set.

Inside a set, `a-z` is a range. A set is kept as **runs**: the characters between its range
hyphens, so that the last character of a run and the first of the next one are the ends of a
range. A range whose ends are in the wrong order holds nothing, and its ends go with it.

`Pattern.matchesChars` is membership in the language of the pattern. It tries every place where a
`*` may end, so `Pattern.covers` decides the same question by a table instead: one row for each end
of the text, with one entry for each end of the pattern (`rows_eq`).
-/

namespace Lintel

inductive PatternPart where
  | star
  | any
  | char (c : Char)
  | never
  /-- One character that is in the set, or that is not in it. -/
  | set (negated : Bool) (runs : List (List Char))
  deriving DecidableEq, Repr

abbrev Pattern := List PatternPart

namespace Pattern

/-! ### Sets -/

/-- Characters that are put back in front of a cut leave what follows it as short as it is. -/
theorem length_of_map_cut {cut : Option (List Char × List Char)} {f : List Char → List Char}
    {n : Nat} {a b : List Char} (h : (cut.map fun (a, b) => (f a, b)) = some (a, b))
    (hcut : ∀ {x y}, cut = some (x, y) → y.length < n) : b.length < n := by
  obtain ⟨⟨x, y⟩, hxy, heq⟩ := Option.map_eq_some_iff.mp h
  cases heq
  exact hcut hxy

/-- Cut `cs` at its first hyphen after the first `skip` characters. -/
def cutHyphen : Nat → List Char → Option (List Char × List Char)
  | _, [] => none
  | skip + 1, c :: cs => (cutHyphen skip cs).map fun (a, b) => (c :: a, b)
  | 0, c :: cs =>
    if c = '-' then some ([], cs)
    else (cutHyphen 0 cs).map fun (a, b) => (c :: a, b)

theorem cutHyphen_length {skip : Nat} {cs a b : List Char}
    (h : cutHyphen skip cs = some (a, b)) : b.length < cs.length := by
  induction cs generalizing skip a b with
  | nil => cases skip <;> simp [cutHyphen] at h
  | cons c cs ih =>
    cases skip with
    | succ skip => exact length_of_map_cut h fun hcut => Nat.lt_succ_of_lt (ih hcut)
    | zero =>
      unfold cutHyphen at h
      split at h
      · simp only [Option.some.injEq, Prod.mk.injEq] at h
        simp [← h.2]
      · exact length_of_map_cut h fun hcut => Nat.lt_succ_of_lt (ih hcut)

/-- Cut the inside of a set at its range hyphens: one that has a character before it, and after
the first range the hyphens that have two. A hyphen at the very end is a character. -/
def runsFrom (skip : Nat) (cs : List Char) : List (List Char) :=
  match _h : cutHyphen skip cs with
  | none => [cs]
  | some (run, rest) =>
    match rest with
    -- the hyphen is the last character of the set and makes no range
    | [] => [run ++ ['-']]
    -- the end of this range cannot begin another one, hence two characters are passed over
    | c :: more => run :: runsFrom 2 (c :: more)
termination_by cs.length
decreasing_by exact cutHyphen_length _h

/-- Join two neighbouring runs whose range is in the wrong order. -/
def dropEmptyRanges : List (List Char) → List (List Char)
  | [] => []
  | run :: runs =>
    match dropEmptyRanges runs with
    | [] => [run]
    | next :: more =>
      match run.getLast?, next.head? with
      | some hi, some lo =>
        -- from the back, so that a joined run is compared with the one before it
        if lo < hi then (run.dropLast ++ next.tail) :: more else run :: next :: more
      | _, _ => run :: next :: more

/-- The part that the inside of a pair of brackets stands for. -/
def setPart (inside : List Char) : PatternPart :=
  -- the first character, or the one after the mark of negation, is no hyphen of a range
  let skip := if inside.head? = some '!' then 2 else 1
  let runs := if inside.contains '-' then dropEmptyRanges (runsFrom skip inside) else [inside]
  match runs with
  | [] | [[]] => .never
  -- nothing is left of the set but its mark: everything is outside of it
  | [['!']] => .any
  | ('!' :: run) :: more => .set true (run :: more)
  | _ => .set false runs

/-- The characters up to the next closing bracket, and what follows it. -/
def cutBracket : List Char → Option (List Char × List Char)
  | [] => none
  | c :: cs =>
    if c = ']' then some ([], cs)
    else (cutBracket cs).map fun (a, b) => (c :: a, b)

/-- The inside of a set whose opening bracket has just been read, and what follows the closing
one. -/
def cutSet (cs : List Char) : Option (List Char × List Char) :=
  match cs with
  -- a closing bracket at the start of the set is one of its characters
  | '!' :: ']' :: more => (cutBracket more).map fun (a, b) => ('!' :: ']' :: a, b)
  | '!' :: more => (cutBracket more).map fun (a, b) => ('!' :: a, b)
  | ']' :: more => (cutBracket more).map fun (a, b) => (']' :: a, b)
  | more => cutBracket more

theorem cutBracket_length {cs a b : List Char} (h : cutBracket cs = some (a, b)) :
    b.length < cs.length := by
  induction cs generalizing a b with
  | nil => simp [cutBracket] at h
  | cons c cs ih =>
    unfold cutBracket at h
    split at h
    · simp only [Option.some.injEq, Prod.mk.injEq] at h
      simp [← h.2]
    · exact length_of_map_cut h fun hcut => Nat.lt_succ_of_lt (ih hcut)

theorem cutSet_length {cs a b : List Char} (h : cutSet cs = some (a, b)) :
    b.length < cs.length := by
  unfold cutSet at h
  split at h
  · exact length_of_map_cut (f := fun a => '!' :: ']' :: a) h fun hcut =>
      Nat.lt_add_right 2 (cutBracket_length hcut)
  · exact length_of_map_cut h fun hcut => Nat.lt_succ_of_lt (cutBracket_length hcut)
  · exact length_of_map_cut h fun hcut => Nat.lt_succ_of_lt (cutBracket_length hcut)
  · exact cutBracket_length h

/-! ### Reading and matching -/

def read (cs : List Char) : Pattern :=
  match cs with
  | [] => []
  | '*' :: rest => .star :: read rest
  | '?' :: rest => .any :: read rest
  | '[' :: rest =>
    match _h : cutSet rest with
    -- nothing closes the bracket, which stands for itself then
    | none => .char '[' :: read rest
    | some (inside, rest') => setPart inside :: read rest'
  | c :: rest => .char c :: read rest
termination_by cs.length
decreasing_by
  · simp
  · simp
  · simp
  · exact Nat.lt_succ_of_lt (cutSet_length _h)
  · simp

def ofString (s : String) : Pattern :=
  read s.toList

/-- Whether a character lies in one of the runs or in a range between two of them. -/
def inRuns (c : Char) : List (List Char) → Bool
  | [] => false
  -- the ends of a range are in their runs, so only what lies between is left to `lo` and `hi`
  | [run] => run.contains c
  | run :: next :: more =>
    run.contains c
      || (match run.getLast?, next.head? with
          | some lo, some hi => decide (lo ≤ c) && decide (c ≤ hi)
          | _, _ => false)
      || inRuns c (next :: more)

/-- Whether a part other than `*` stands for a character. -/
def accepts (part : PatternPart) (c : Char) : Bool :=
  match part with
  | .star => false
  | .any => true
  | .char d => c == d
  | .never => false
  | .set negated runs => inRuns c runs != negated

/-- Whether a `*` before the rest of a pattern stands for some first characters: `tail` tells
whether the rest matches what is left. -/
def matchStar (tail : List Char → Bool) : List Char → Bool
  | [] => tail []
  | c :: cs => tail (c :: cs) || matchStar tail cs

/-- Whether the whole of a list of characters is in the language of a pattern. -/
def matchesChars : Pattern → List Char → Bool
  | [], cs => cs.isEmpty
  | .star :: rest, cs => matchStar (matchesChars rest) cs
  | part :: rest, cs =>
    match cs with
    | [] => false
    | c :: cs => accepts part c && matchesChars rest cs

/-! ### Rows -/

/-- Which ends of a pattern, from the longest to the empty one, match the empty text. -/
def emptyRow : Pattern → List Bool
  | [] => [true]
  | .star :: rest =>
    let row := emptyRow rest
    -- a star may stand for nothing and be left out
    row.headD false :: row
  | _ :: rest => false :: emptyRow rest

/-- Which ends of a pattern match a text with one more character in front, given which of them
match it without. -/
def nextRow (c : Char) : Pattern → List Bool → List Bool
  | [], _ => [false]
  | part :: rest, old =>
    let row := nextRow c rest old.tail
    let here := match part with
      -- the star ends before the new character, or takes it in
      | .star => row.headD false || old.headD false
      | part => accepts part c && old.tail.headD false
    here :: row

/-- Which ends of a pattern match some characters. -/
def rows (p : Pattern) (cs : List Char) : List Bool :=
  cs.foldr (fun c row => nextRow c p row) (emptyRow p)

/-- Whether a text is in the language of the pattern written `pattern`. -/
def covers (pattern text : String) : Bool :=
  (rows (ofString pattern) text.toList).headD false

def ends : Pattern → List Pattern
  | [] => [[]]
  | part :: rest => (part :: rest) :: ends rest

@[simp] theorem headD_map_ends (f : Pattern → Bool) (p : Pattern) :
    ((ends p).map f).headD false = f p := by
  cases p <;> rfl

theorem emptyRow_eq (p : Pattern) : emptyRow p = (ends p).map (matchesChars · []) := by
  induction p with
  | nil => rfl
  | cons part rest ih =>
    cases part <;> simp [emptyRow, ends, ih, matchesChars, matchStar, -List.headD_eq_head?_getD]

theorem nextRow_eq (c : Char) (cs : List Char) (p : Pattern) :
    nextRow c p ((ends p).map (matchesChars · cs)) = (ends p).map (matchesChars · (c :: cs)) := by
  induction p with
  | nil => rfl
  | cons part rest ih =>
    cases part <;>
      simp [nextRow, ends, ih, matchesChars, matchStar, -List.headD_eq_head?_getD]

/-- The entries of a row are what they stand for. -/
theorem rows_eq (p : Pattern) (cs : List Char) :
    rows p cs = (ends p).map (matchesChars · cs) := by
  induction cs with
  | nil => exact emptyRow_eq p
  -- the row of the longer text is made from that of the shorter one alone
  | cons c cs ih => rw [← nextRow_eq, ← ih]; rfl

/-- The table decides membership in the language of the pattern. -/
theorem covers_eq (pattern text : String) :
    covers pattern text = matchesChars (ofString pattern) text.toList := by
  simp only [covers, rows_eq, headD_map_ends]

end Pattern

end Lintel
