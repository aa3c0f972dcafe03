import Lintel.Data.Reading
import Lintel.Data.Spelling
import Lintel.Text.Blank

/-!
# The validation built in

`Validation.builtin` is the library that the program runs with. It is lenient. Truth values may be
given as such, as the numbers zero and one, or in words. Whole numbers may be given as numbers
without a fractional part or in digits. A set of texts stands for a list, and octets for the text
that they encode. Anything else is a problem, and so is a key that belongs to no field.
-/

namespace Lintel

namespace Reader

/-! ### Keys -/

def fitsWord (n : Int) : Bool := decide (-(Nat.pow 2 63) ≤ n) && decide (n < Nat.pow 2 63)

def keyPlace : Data → Place
  -- a truth value is a number to whoever spells places
  | .bool b => .index (if b then 1 else 0)
  | .int n =>
    if fitsWord n then .index n
    else .key (if Whole.isTooLong n then "<unprintable int object>" else toString n)
  | d => .key d.spelling

def extraProblem? (used : List String) : Data → Option Problem
  | .text s => if used.contains s then none else some ⟨[.key s], .unknownKey⟩
  | d => some ⟨[keyPlace d], .keyNotText⟩

def extras (fields : List Field) (entries : List (Data × Data)) : List Problem :=
  -- of a field that is given in both spellings only the one that counts is in use
  let used := fields.filterMap fun f => (f.find? entries).map (·.1)
  entries.filterMap fun e => extraProblem? used e.1

/-! ### Values -/

def truthWord? (s : String) : Option Bool :=
  let w := lowerAscii s
  if ["0", "off", "f", "false", "n", "no"].contains w then some false
  else if ["1", "on", "t", "true", "y", "yes"].contains w then some true
  else none

def textOf? : Data → Option (Except Unit String)
  | .text s => some (.ok s)
  | .bytes bs =>
    match Utf8.decode bs with
    | .ok cs => some (.ok (String.ofList cs))
    | .error _ => some (.error ())
  | _ => none

/-- Zero and one as truth values. -/
def truthNumber (n : Int) : Reading Bool :=
  if n = 0 then .good false else if n = 1 then .good true else .bad false .notTruth

/-- The whole number of a floating point number, if it is neither too large nor too small for
sixty-four bits. The least number of sixty-four bits counts as too small. -/
def wordOf? (x : Binary64) : Option Int :=
  x.toInt?.filter fun n => decide (-(Nat.pow 2 63) < n) && decide (n < Nat.pow 2 63)

/-- A truth value. Numbers that do not fit into sixty-four bits are of the wrong kind. -/
def truth (d : Data) : Reading Bool :=
  match d with
  | .bool b => .good b
  -- a number that does not fit is of another kind, not just a wrong one
  | .int n => if fitsWord n then truthNumber n else .bad false .noTruthKind
  | .float x =>
    match wordOf? x with
    | some n => truthNumber n
    | none => .bad false .noTruthKind
  | _ =>
    match textOf? d with
    | some (.ok s) =>
      match truthWord? s with
      | some b => .good b
      | none => .bad false .notTruth
    | some (.error _) => .bad false .notTruth
    | none => .bad false .noTruthKind

def text (d : Data) : Reading String :=
  match textOf? d with
  | some (.ok s) => .good s
  | some (.error _) => .bad "" .notUnicode
  | none => .bad "" .notText

def textsFrom : Int → List Data → Reading (List String)
  | _, [] => .good []
  | n, d :: ds =>
    let r := (text d).below (.index n)
    let rest := textsFrom (n + 1) ds
    ⟨r.value :: rest.value, r.problems ++ rest.problems⟩

def texts : Data → Reading (List String)
  | .list ds => textsFrom 0 ds
  | .set ds => textsFrom 0 ds
  | _ => .bad [] .notList

def orNull {α : Type} (f : Data → Reading α) : Data → Reading (Option α)
  | .null => .good none
  | d => (f d).map some

/-! #### Whole numbers in digits

Digits are read in two ways. The strict way takes a minus and digits without a zero in front. A
text that is refused is tidied up and tried once more: blanks around it, a plus, zeros in front,
a tail of zeros after the point and single underscores are taken away. -/

/-- A whole number in the strict way. The digits are counted before what follows them is looked
at. -/
def strictWhole (cs : List Char) : Reading Int :=
  let (negative, body) := match cs with
    | '-' :: more => (true, more)
    | more => (false, more)
  let ds := body.takeWhile Char.isDigit
  -- a zero in front is refused in any case, so its digits are not counted
  if ds.head? ≠ some '0' && Whole.digitLimit < ds.length + (if negative then 1 else 0) then
    .bad 0 .tooManyDigits
  else if body.isEmpty || ds.length ≠ body.length || (ds.head? = some '0' && ds ≠ ['0']) then
    .bad 0 .notWhole
  else
    let n : Nat := ds.foldl (fun n c => n * 10 + (c.toNat - '0'.toNat)) 0
    .good (if negative then -(n : Int) else n)

/-- Drop zeros and underscores after a zero up to the first other digit. A point keeps the
character before it, and so does the end. -/
def dropZeros (last : Char) : List Char → Option (List Char)
  | [] => some [last]
  | c :: cs =>
    if c = '0' || c = '_' then dropZeros c cs
    else if c.isDigit || c = '-' then some (c :: cs)
    else if c = '.' then some (last :: c :: cs)
    else none

def dropLeadingZeros : List Char → Option (List Char)
  | [] => none
  | c :: cs => if c = '0' then dropZeros c cs else if c.isDigit then some (c :: cs) else none

/-- Drop a point and the zeros after it at the end; there must be zeros. -/
def dropZeroTail (cs : List Char) : List Char :=
  let zeros := cs.reverse.takeWhile (· = '0')
  match cs.reverse.drop zeros.length with
  | '.' :: whole => if zeros.isEmpty then cs else whole.reverse
  | _ => cs

/-- Whether two underscores stand side by side. -/
def hasDoubleUnderscore : List Char → Bool
  | '_' :: '_' :: _ => true
  | _ :: cs => hasDoubleUnderscore cs
  | [] => false

/-- Drop underscores, if they stand alone and between others. -/
def dropUnderscores (cs : List Char) : List Char :=
  if cs.head? = some '_' || cs.getLast? = some '_' || hasDoubleUnderscore cs then cs
  else cs.filter (· ≠ '_')

/-- A number tidied up. -/
def tidy? (cs : List Char) : Option (List Char) :=
  match trimBoth isWhiteSpace cs with
  | '-' :: more => (dropLeadingZeros more).map fun ds => '-' :: dropUnderscores (dropZeroTail ds)
  | '+' :: more => (dropLeadingZeros more).map fun ds => dropUnderscores (dropZeroTail ds)
  | more => (dropLeadingZeros more).map fun ds => dropUnderscores (dropZeroTail ds)

def wholeText (s : String) : Reading Int :=
  let first := strictWhole s.toList
  -- too many digits stay too many, however the text is tidied up
  if first.problems.any (·.trouble = .notWhole) then
    match tidy? s.toList with
    | some cs => strictWhole cs
    | none => first
  else first

def whole (d : Data) : Reading Int :=
  match d with
  | .bool b => .good (if b then 1 else 0)
  | .int n => .good n
  | .float x =>
    if !x.isFinite then .bad 0 .notFinite
    -- the fractional part is looked at before the size
    else if x.toInt?.isNone then .bad 0 .fractional
    else
      match wordOf? x with
      | some n => .good n
      | none => .bad 0 .tooManyDigits
  | _ =>
    match textOf? d with
    | some (.ok s) => wholeText s
    | some (.error _) => .bad 0 .notWhole
    | none => .bad 0 .noWholeKind

/-- A whole number that is not negative. -/
def count (d : Data) : Reading Int :=
  let r := whole d
  if r.problems.isEmpty && decide (r.value < 0) then .bad 0 .tooSmall else r

/-! ### Settings inside of others -/

def entries : Data → Reading (List (Data × Data))
  | .map es => .good es
  | _ => .bad [] .notMapping

end Reader

/-- The library that the program runs with. -/
def Validation.builtin : Validation where
  keys fields entries := ⟨fun f => f.find? entries, Reader.extras fields entries⟩
  entries := Reader.entries
  truth := Reader.truth
  text := Reader.text
  texts := Reader.texts
  textsOrNull := Reader.orNull Reader.texts
  count := Reader.count
  dump values := values.map fun e => (.text e.1.plain, e.2)
  dumpPublished values :=
    (values.filter fun e => !e.2.isNull).map fun e => (.text e.1.published, e.2)

end Lintel
