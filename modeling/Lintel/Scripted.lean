import Lintel.Rule

/-!
# Rules and parsers played from a script

To try out the engine one needs rules and parsers whose behaviour is known in advance. This module
has a few: a rule that looks for a word, a rule that plays back recorded passes, a rule that never
finds an end, a rule that hands over whatever it is told to, a rule without a detection, and a
parser that looks its trees up in a table. They count their calls in a `Tally`, and some of them
cancel the run at a given call.
-/

namespace Lintel

/-- How often each scripted rule was asked for findings and for corrections, and how often the
parser was called. Rules are told apart by a number. -/
structure Tally where
  detects : Nat → Nat := fun _ => 0
  corrects : Nat → Nat := fun _ => 0
  parses : Nat := 0

namespace Tally

def countDetect (t : Tally) (id : Nat) : Tally :=
  { t with detects := fun k => if k = id then t.detects k + 1 else t.detects k }

def countCorrect (t : Tally) (id : Nat) : Tally :=
  { t with corrects := fun k => if k = id then t.corrects k + 1 else t.corrects k }

def countParse (t : Tally) : Tally :=
  { t with parses := t.parses + 1 }

end Tally

namespace Scripted

/-! ### Rules -/

/-- The ranges in which `word` occurs in a text that begins at `offset`, from the left, without
overlap; the first `skip` octets belong to an occurrence already listed. -/
def occurrencesFrom (word : Bytes) : Nat → Nat → Bytes → List (Nat × Nat)
  | _, _, [] => []
  | offset, skip + 1, _ :: rest => occurrencesFrom word (offset + 1) skip rest
  | offset, 0, b :: rest =>
    if word.isPrefixOf (b :: rest) then
      (offset, offset + word.length) :: occurrencesFrom word (offset + 1) (word.length - 1) rest
    else occurrencesFrom word (offset + 1) 0 rest

/-- A rule that looks for a word. -/
structure WordSpec where
  word : String
  replacement : Option String := none
  message : String := ""
  cancelOnDetect : Option Int := none
  cancelOnCorrect : Option Int := none

/-- The rule that reports a word and, if it has a replacement, replaces it. -/
def wordKind (id : Nat) (profile : RuleProfile) (spec : WordSpec) : RuleKind Tally where
  profile := profile
  detect c v t :=
    let t := t.countDetect id
    let found := (occurrencesFrom (Utf8.ofString spec.word) 0 0 v.bytes).map fun (s, e) =>
      Rule.issueAt profile c v s e spec.message
    -- the count includes this call, so one is the first
    ⟨.ok (some found), t, spec.cancelOnDetect == some (t.detects id : Int)⟩
  correct _ _ i t :=
    let t := t.countCorrect id
    let answer := match spec.replacement with
      | some r => Rule.proposeEdit i.start i.stop r
      | none => .ok none
    ⟨answer, t, spec.cancelOnCorrect == some (t.corrects id : Int)⟩

/-- One item of a recorded pass. -/
inductive Item where
  | fail (message : String)
  | find (start stop : Int) (message : String) (correctable : Option Bool) (remedy : Remedy)

/-- The issues of the items, up to a failure. -/
def playItems (p : RuleProfile) (c : RuleConfig) (v : View) :
    List Item → Except Fault (List Issue)
  | [] => .ok []
  | .fail m :: _ => .error (.failed m)
  | .find s e m correctable remedy :: items =>
    (playItems p c v items).map (Rule.issueAt p c v s e m correctable (some remedy) :: ·)

def answerOf : Option Remedy → Except Fault (Option Edit)
  | some (.replace s e text) => Rule.proposeEdit s e text
  | some (.refuse m) => .error (.badValue m)
  | some .decline | none => .ok none

/-- The rule that plays back recorded passes, the last one again and again. A pass that is missing
is no list at all. -/
def playKind (id : Nat) (profile : RuleProfile) (passes : List (Option (List Item))) :
    RuleKind Tally where
  profile := profile
  detect c v t :=
    let answer := match passes[min (t.detects id) (passes.length - 1)]? with
      -- no pass was recorded at all
      | none => .error .noPass
      | some none => .ok none
      | some (some items) => (playItems profile c v items).map some
    ⟨answer, t.countDetect id, false⟩
  correct _ _ i t := ⟨answerOf i.remedy, t.countCorrect id, false⟩

/-- The rule that doubles the letter `a` at the start of a text, for ever. -/
def growingKind (profile : RuleProfile) : RuleKind Tally where
  profile := profile
  detect c v t :=
    let found :=
      if v.bytes.head? = some 0x61 then [Rule.issueAt profile c v 0 1 "Starts with a"] else []
    .ofExcept (.ok (some found)) t
  correct _ _ _ t := .ofExcept (Rule.proposeEdit 0 1 "aa") t

/-- The rule that hands over what it is told to for a text, and proposes what it is told to for an
issue. -/
def handingKind {σ : Type} (profile : RuleProfile) (found : View → List Issue)
    (propose : Issue → Except Fault (Option Edit)) : RuleKind σ where
  profile := profile
  detect _ v memory := .ofExcept (.ok (some (found v))) memory
  correct _ _ i memory := .ofExcept (propose i) memory

/-- The rule that has no detection of its own. -/
def bareKind {σ : Type} (profile : RuleProfile) : RuleKind σ where
  profile := profile
  detect _ _ memory := .ofExcept (.error .notImplemented) memory
  correct := Rule.neverCorrects

/-! ### Parsers -/

/-- What a table does with a text it does not list. -/
inductive Otherwise where
  /-- There is no tree, and asking for one is a fault. -/
  | fault
  /-- A tree of a single node. -/
  | flat
  /-- No tree. -/
  | nothing
  deriving DecidableEq, Repr

def flatTree (text : String) : Tree :=
  let bs := Utf8.ofString text
  ⟨⟨"program", 0, bs.length, true, false, none, []⟩, false, bs⟩

structure Table where
  entries : List (String × Option (Node × Bool))
  otherwise : Otherwise := .fault
  /-- Cancel the run at this call. -/
  cancelAt : Option Int := none

/-- The tree of a text in a table: the last one listed for it. -/
def Table.lookup (table : Table) (text : String) : Except Fault (Option Tree) :=
  match table.entries.reverse.find? (·.1 == text) with
  | some (_, some (root, hasError)) => .ok (some ⟨root, hasError, Utf8.ofString text⟩)
  | some (_, none) => .ok none
  | none =>
    match table.otherwise with
    | .fault => .error .noTree
    | .flat => .ok (some (flatTree text))
    | .nothing => .ok none

def Table.parser (table : Table) : Parser Tally := fun text t =>
  let t := t.countParse
  ⟨table.lookup text, t, table.cancelAt == some (t.parses : Int)⟩

/-- The parser that gives every text a tree of a single node. -/
def flatParser {σ : Type} : Parser σ := fun text memory =>
  .ofExcept (.ok (some (flatTree text))) memory

end Scripted

end Lintel
