import Lintel.Invocation.Help
import Lintel.Invocation.Word
import Lintel.Number.Whole
import Lintel.Severity
import Lintel.Text.Blank
import Lintel.Text.Split

/-!
# Invocations

An invocation is what the arguments of the program ask for. It is read word by word. What a
switch asks for takes effect at once, so a call for help or for the version stops the reading,
whatever comes after it. Only a shortened name that could mean several switches is found before
anything else.

**Letters in one argument** belong together: they take effect when the last of them has its value.

**A value of two hyphens** that is attached to its switch is no value: the switch is left blank. A
blank switch is not the same as one that was never given. Where a value is needed it does harm.

**Operands** stand together: the first run of them are the paths. An operand after a later switch
is one too many, and so is an unknown switch. Words that are too many do not stop the reading,
but in the end they spoil it.
-/

namespace Lintel

/-- What a switch was given. -/
inductive Choice (α : Type) where
  | unset
  /-- It was used without a value. -/
  | blank
  | given (a : α)
  deriving DecidableEq, Repr

namespace Choice

variable {α : Type}

def toOption : Choice α → Option α
  | given a => some a
  | unset | blank => none

/-- What was given, or a value that stands for it. -/
def getD (c : Choice α) (a : α) : α := c.toOption.getD a

end Choice

/-- What the arguments ask for. -/
structure Invocation where
  paths : List String := []
  config : Choice String := .unset
  format : Option Format := none
  only : List String := []
  /-- The rules or groups not to run. -/
  without : List String := []
  /-- Whether to correct files. -/
  fix : Bool := false
  /-- The lowest severity that makes the run fail. -/
  failLevel : Choice Severity := .unset
  jobs : Choice Int := .unset
  genConfig : Bool := false
  maxIterations : Choice Int := .unset
  verbose : Bool := false
  deriving DecidableEq, Repr

namespace Invocation

/-- Why arguments ask for nothing to be run. -/
inductive Stop where
  | help
  | version
  /-- They cannot be understood. -/
  | misuse
  deriving DecidableEq, Repr

/-! ### Switches -/

/-- The names in a list with commas, without blanks around them. -/
def nameList (s : String) : List String :=
  ((splitText ',' s).map trimBlank).filter fun n => !n.isEmpty

def orMisuse {α : Type} (v : Option α) (f : α → Invocation) : Except Stop Invocation :=
  match v with
  | some a => .ok (f a)
  | none => .error .misuse

def turnOn (i : Invocation) : Switch → Except Stop Invocation
  | .help => .error .help
  | .version => .error .version
  | .fix => .ok { i with fix := true }
  | .genConfig => .ok { i with genConfig := true }
  | .verbose => .ok { i with verbose := true }
  | _ => .error .misuse

def set (i : Invocation) (s : Switch) (v : String) : Except Stop Invocation :=
  match s with
  | .config => .ok { i with config := .given v }
  | .format => orMisuse (Format.ofName? v) fun f => { i with format := some f }
  | .only => .ok { i with only := nameList v }
  | .without => .ok { i with without := nameList v }
  | .failLevel => orMisuse (Severity.parse? v) fun l => { i with failLevel := .given l }
  | .jobs => orMisuse (Whole.ofText? v) fun n => { i with jobs := .given n }
  | .maxIterations => orMisuse (Whole.ofText? v) fun n => { i with maxIterations := .given n }
  | _ => .error .misuse

def leaveBlank (i : Invocation) : Switch → Invocation
  | .config => { i with config := .blank }
  | .format => { i with format := none }
  | .only => { i with only := [] }
  | .without => { i with without := [] }
  | .failLevel => { i with failLevel := .blank }
  | .jobs => { i with jobs := .blank }
  | .maxIterations => { i with maxIterations := .blank }
  | _ => i

def attach (i : Invocation) (s : Switch) (v : String) : Except Stop Invocation :=
  -- the two hyphens are taken for the end of the switches, which leaves no value
  if v = Word.dividerText then .ok (i.leaveBlank s) else i.set s v

def turnOnAll (i : Invocation) (ss : List Switch) : Except Stop Invocation :=
  ss.foldlM turnOn i

/-! ### Letters -/

inductive LettersEnd where
  | plain
  | valued (s : Switch) (v : String)
  /-- With a letter that wants the next word as its value. -/
  | wanting (s : Switch)
  /-- With something that is neither. -/
  | misused
  deriving DecidableEq, Repr

/-- The letters of an argument: those that take no value, and how they end. -/
structure Letters where
  plain : List Switch
  ending : LettersEnd
  deriving DecidableEq, Repr

namespace Letters

def attached (s : Switch) : List Char → Letters
  | [] => if s.takesValue then ⟨[], .wanting s⟩ else ⟨[s], .plain⟩
  | c :: cs =>
    -- what is left is the value, even if it looks like more letters
    if s.takesValue then ⟨[], .valued s (String.ofList (c :: cs))⟩
    else
      match Switch.letter? c with
      -- the letters before have been read by then, but none of them takes effect
      | none => ⟨[s], .misused⟩
      | some t =>
        let more := attached t cs
        ⟨s :: more.plain, more.ending⟩

/-- Take an argument apart into letters, the first of which is known. After it an equals sign may
stand, but then something must be attached, if only an empty value. -/
def ofRest (s : Switch) : List Char → Letters
  | '=' :: cs =>
    if s.takesValue then ⟨[], .valued s (String.ofList cs)⟩
    else if cs.isEmpty then ⟨[s], .misused⟩
    else attached s cs
  | cs => attached s cs

end Letters

/-! ### Words -/

/-- Where the reading stands with the operands. -/
inductive Operands where
  /-- There were none. -/
  | ahead
  /-- The word before was one. -/
  | here
  /-- There were some, and a switch came after them. -/
  | passed
  deriving DecidableEq, Repr

def Operands.afterSwitch : Operands → Operands
  | ahead => ahead
  | here | passed => passed

/-- How far the reading has come. -/
structure Progress where
  asked : Invocation := {}
  operands : Operands := .ahead
  waiting : Option (List Switch × Switch) := none
  /-- There was a word too many. -/
  spoiled : Bool := false
  deriving DecidableEq, Repr

namespace Progress

def goOn (p : Progress) (asked : Invocation) : Progress :=
  { p with asked := asked, operands := p.operands.afterSwitch, waiting := none }

/-- Go on to the value of a switch. -/
def await (p : Progress) (plain : List Switch) (s : Switch) : Progress :=
  { p with operands := p.operands.afterSwitch, waiting := some (plain, s) }

def letters (p : Progress) (ls : Letters) : Except Stop Progress :=
  match ls.ending with
  | .plain => (p.asked.turnOnAll ls.plain).map p.goOn
  | .valued s v => (p.asked.turnOnAll ls.plain).bind fun i => (i.attach s v).map p.goOn
  -- the letters wait together for the value of the last one
  | .wanting s => .ok (p.await ls.plain s)
  | .misused => .error .misuse

def readWord (p : Progress) : Word → Except Stop Progress
  | .long s (some v) => if s.takesValue then (p.asked.attach s v).map p.goOn else .error .misuse
  | .long s none =>
    if s.takesValue then .ok (p.await [] s) else (p.asked.turnOn s).map p.goOn
  | .short s rest => p.letters (Letters.ofRest s rest)
  | .ambiguous => .error .misuse
  | .unknown => .ok { p with operands := p.operands.afterSwitch, spoiled := true }
  | .operand t =>
    -- the paths are complete; one more operand is one too many
    if p.operands = .passed then .ok { p with spoiled := true }
    else .ok { p with operands := .here, asked := { p.asked with paths := p.asked.paths ++ [t] } }
  | .divider =>
    if p.operands = .passed then .ok { p with spoiled := true }
    else .ok { p with operands := .here }

def step (p : Progress) (w : Word) : Except Stop Progress :=
  match p.waiting, w with
  | none, w => p.readWord w
  | some (plain, s), .operand v =>
    -- the letters that stood before take effect first
    (p.asked.turnOnAll plain).bind fun i => (i.set s v).map p.goOn
  | some _, _ => .error .misuse

/-- What was asked for when all words are read. -/
def finish (p : Progress) : Except Stop Invocation :=
  if p.waiting.isSome || p.spoiled then .error .misuse else .ok p.asked

end Progress

def ofWords (ws : List Word) : Except Stop Invocation :=
  -- found before any word is read, so not even a call for help comes first
  if ws.contains .ambiguous then .error .misuse
  else (ws.foldlM Progress.step {}).bind Progress.finish

def ofArguments (args : List String) : Except Stop Invocation :=
  ofWords (Word.ofArguments args)

/-! ### Stops -/

/-- What is printed if nothing is run. -/
def Stop.output : Stop → String
  | .help => Help.text
  | .version => Program.title ++ "\n"
  | .misuse => ""

def Stop.exitCode : Stop → Nat
  | .help | .version => 0
  | .misuse => 2

end Invocation

end Lintel
