import Lintel.Engine
import Lintel.Output.Format
import Lintel.Rule.Options

/-!
# Configurations

A configuration holds the settings of a run and one configured rule for each kind of the catalog.
It is read from a mapping: the keys with a slash in them are sections for rules, the others are
settings. What is wrong is found in this order: the data is not a mapping; keys that cannot be
spelled; the settings; the sections of the rules in the order of the catalog; sections for rules
that do not exist.

`Config.updateRules` changes rules by name; a name that is the name of a group changes all rules
of the group. It stops at the first name that fails, and what was done before stays.

`Config.toData` writes the configuration in the form in which it is read.

What reads and writes settings takes the library that does so as its last argument, which is the
one built in unless another is given.
-/

namespace Lintel

/-- Why a configuration cannot be made or changed. -/
inductive ConfigError where
  | missingFile (path : String)
  /-- The file cannot be read as a document. -/
  | badDocument
  | notMapping
  | badSettings (problems : List Problem)
  | sectionNotMapping (rule : String)
  | badSection (rule : String) (problems : List Problem)
  | unknownSections (names : List String)
  | unknownRule (name : String)
  | badOptions (rule : String) (problems : List Problem)
  | unknownFormat (name : String)
  | noRules
  deriving DecidableEq, Repr

namespace ConfigError

/-- What every message about a bad file starts with. -/
def invalidFile : String := "Config file is invalid: "

/-- The words for an error. Problems are not spelled out; they come after these words. -/
def message : ConfigError → String
  | missingFile path => "Config file does not exist: " ++ path
  | badDocument => invalidFile
  | notMapping => invalidFile ++ "expected a mapping at the top level"
  | badSettings _ => invalidFile
  | sectionNotMapping rule => invalidFile ++ "section " ++ rule ++ " must be a mapping"
  | badSection rule _ => invalidFile ++ rule ++ ": "
  | unknownSections names => invalidFile ++ "unknown rules " ++ ", ".intercalate names
  | unknownRule name => "Rule '" ++ name ++ "' does not exist"
  | badOptions rule _ => "Invalid options for " ++ rule ++ ": "
  | unknownFormat name =>
    "Unknown formatter '" ++ name ++ "'. Use one of: " ++ ", ".intercalate Format.names
  | noRules => NoRules.noRules.message

def problems : ConfigError → List Problem
  | badSettings ps | badSection _ ps | badOptions _ ps => ps
  | _ => []

end ConfigError

inductive LoadError where
  | config (e : ConfigError)
  /-- The content of the file is at fault, or its place on the disk. -/
  | fault (f : Fault)
  deriving DecidableEq, Repr

/-- The settings that are not about rules. -/
structure Settings where
  globs : List String
  excluded : List String
  formatName : String
  maxIterations : Int
  deriving DecidableEq, Repr

namespace Settings

def defaultGlobs : List String := ["**/*.rb", "**/*.cr", "!lib"]

def defaultFormat : String := "text"

def globsField : Field := ⟨"Globs", "globs"⟩

def excludedField : Field := ⟨"Excluded", "excluded"⟩

def formatField : Field := ⟨"Formatter", "formatter"⟩

def formatNameField : Field := ⟨"Name", "name"⟩

/-- The field for the budget of revisions. -/
def maxIterationsField : Field := ⟨"MaxIterations", "max_iterations"⟩

def fields : List Field := [globsField, excludedField, formatField, maxIterationsField]

/-- Read the field for the format, a mapping with a name. -/
def readFormat (v : Validation) (d : Data) : Reading String :=
  let entries := v.entries d
  -- with anything else than a mapping there is no name to read
  if entries.problems.isEmpty then
    let keys := v.keys [formatNameField] entries.value
    let name := keys.read formatNameField defaultFormat v.text
    ⟨name.value, name.problems ++ keys.problems⟩
  else ⟨defaultFormat, entries.problems⟩

def ofEntries (entries : List (Data × Data)) (v : Validation) : Except (List Problem) Settings :=
  let keys := v.keys fields entries
  let globs := keys.read globsField defaultGlobs fun d => v.texts d.listed
  let excluded := keys.read excludedField [] fun d => v.texts d.listed
  let format := keys.read formatField defaultFormat (readFormat v)
  let limit := keys.read maxIterationsField defaultMaxIterations v.count
  Reading.result
    ⟨⟨globs.value, excluded.value, format.value, limit.value⟩,
      globs.problems ++ excluded.problems ++ format.problems ++ limit.problems ++ keys.problems⟩

def toEntries (s : Settings) : List (Data × Data) :=
  [(.text globsField.published, RuleConfig.textsData s.globs),
    (.text excludedField.published, RuleConfig.textsData s.excluded),
    (.text formatField.published, .map [(.text formatNameField.published, .text s.formatName)]),
    (.text maxIterationsField.published, .int s.maxIterations)]

end Settings

/-- The settings of a run and its rules. -/
structure Config (σ : Type) where
  catalog : Catalog σ
  settings : Settings
  rules : List (Rule σ)
  /-- The file the configuration was read from. -/
  path : Option String
  /-- The directory that globs refer to. -/
  root : String

namespace Config

variable {σ : Type}

/-! ### Reading and writing -/

/-- A key that belongs to a rule. -/
def isSectionKey (key : Data) : Bool :=
  key.shown.toList.contains '/'

def sectionOf (sections : List (Data × Data)) (name : String) : Data :=
  let d := (Data.get? sections name).getD .null
  if d.isNothing then .map [] else d

def readRules (sections : List (Data × Data)) (v : Validation) :
    List (RuleKind σ) → Except ConfigError (List (Rule σ))
  | [] => .ok []
  | k :: ks =>
    -- a kind without a section is configured by an empty one
    match sectionOf sections k.fullName with
    | .map entries =>
      match Rule.ofSection k entries v with
      | .error ps => .error (.badSection k.fullName ps)
      | .ok r => (readRules sections v ks).map (r :: ·)
    | _ => .error (.sectionNotMapping k.fullName)

/-- The sections that belong to no rule. -/
def strangeSections (catalog : Catalog σ) (sections : List (Data × Data)) : List Data :=
  (sections.map (·.1)).filter fun key =>
    match key with
    | .text n => !catalog.kinds.any (·.fullName == n)
    | _ => true

/-- Refuse sections that belong to no rule. They are listed in order, which octets have no place
in. -/
def refuseStrange : List Data → Except LoadError Unit
  | [] => .ok ()
  | keys =>
    if keys.all fun | .text _ => true | _ => false then
      -- in order of their spellings
      .error (.config (.unknownSections (keys.map (·.shown)).mergeSort))
    else .error (.fault (.wrongKind "sections with octets as names cannot be listed"))

def checkKeys (entries : List (Data × Data)) : Except LoadError Unit :=
  if entries.any fun e => e.1.holdsTooLong then
    .error (.fault (.badValue Whole.unwritableMessage))
  else .ok ()

def ofEntries (catalog : Catalog σ) (path : Option String) (root : String)
    (entries : List (Data × Data)) (v : Validation) : Except LoadError (Config σ) := do
  checkKeys entries
  -- a slash in the key decides, before any value is looked at
  let sections := entries.filter fun e => isSectionKey e.1
  let settings ← (Settings.ofEntries (entries.filter fun e => !isSectionKey e.1) v).mapError
    fun ps => .config (.badSettings ps)
  let rules ← (readRules sections v catalog.kinds).mapError .config
  refuseStrange (strangeSections catalog sections)
  .ok ⟨catalog, settings, rules, path, root⟩

/-- Read a configuration from data; null stands for an empty mapping. -/
def ofData (catalog : Catalog σ) (path : Option String) (root : String) (d : Data)
    (v : Validation := .builtin) : Except LoadError (Config σ) :=
  match d with
  | .null => ofEntries catalog path root [] v
  | .map entries => ofEntries catalog path root entries v
  | _ => .error (.config .notMapping)

/-- The configuration in the form in which it is read. -/
def toEntries (c : Config σ) (v : Validation := .builtin) : List (Data × Data) :=
  c.settings.toEntries
    ++ c.rules.map fun r => (.text r.fullName, .map (v.dumpPublished r.config.values))

def toData (c : Config σ) (v : Validation := .builtin) : Data := .map (c.toEntries v)

/-! ### Rules -/

def rule? (c : Config σ) (name : String) : Option (Rule σ) :=
  match c.catalog.find? name with
  | none => none
  | some k => c.rules.find? (·.fullName == k.fullName)

def enabledRules (c : Config σ) : List (Rule σ) := c.rules.filter (·.enabled)

/-- What an update sets: whether the rule is enabled, and the patterns of excluded paths, which
are dropped if none are given. -/
structure RuleUpdate where
  enabled : Data := .bool true
  excluded : Option (List Data) := none

def RuleUpdate.entries (u : RuleUpdate) : List (Data × Data) :=
  [(.text RuleConfig.enabledField.plain, u.enabled),
    (.text RuleConfig.excludedField.plain,
      match u.excluded with | some xs => .list xs | none => .null)]

/-- Put a rule in the place of the first rule with its full name. -/
def replaceRule (r : Rule σ) : List (Rule σ) → List (Rule σ)
  | [] => []
  -- names are distinct in a configuration that was read, and then the first is the only one
  | x :: xs => if x.fullName == r.fullName then r :: xs else x :: replaceRule r xs

def updateRule (c : Config σ) (name : String) (u : RuleUpdate) (v : Validation := .builtin) :
    Except ConfigError (Config σ) :=
  match c.rule? name with
  | none => .error (.unknownRule name)
  | some r =>
    match r.update u.entries v with
    | .error ps => .error (.badOptions r.fullName ps)
    | .ok r' => .ok { c with rules := replaceRule r' c.rules }

/-- A configuration after some changes, and why the next one failed, if it did. -/
structure Updated (σ : Type) where
  config : Config σ
  error : Option ConfigError := none

/-- Change rules by their full or bare names, up to a failure. -/
def updateEach (u : RuleUpdate) (v : Validation) : List String → Config σ → Updated σ
  | [], c => ⟨c, none⟩
  | name :: names, c =>
    match c.updateRule name u v with
    -- what was changed before stays changed
    | .error e => ⟨c, some e⟩
    | .ok c' => updateEach u v names c'

def resolve (c : Config σ) (name : String) : List String :=
  if c.catalog.groups.contains name then
    (c.rules.filter (·.group == name)).map (·.fullName)
  else [name]

/-- Change rules by name or by group, up to a failure. -/
def updateRules (c : Config σ) (names : List String) (u : RuleUpdate)
    (v : Validation := .builtin) : Updated σ :=
  updateEach u v (names.flatMap c.resolve) c

def Updated.result (u : Updated σ) : Except ConfigError (Config σ) :=
  match u.error with
  | some e => .error e
  | none => .ok u.config

/-- Enable rules by name or by group. They run on every source again. -/
def enable (c : Config σ) (names : List String) (v : Validation) :
    Except ConfigError (Config σ) :=
  (c.updateRules names { enabled := .bool true } v).result

/-- Disable rules by name or by group. -/
def disable (c : Config σ) (names : List String) (v : Validation) :
    Except ConfigError (Config σ) :=
  (c.updateRules names { enabled := .bool false } v).result

/-- Disable all rules, and then enable some by name or by group. -/
def enableOnly (c : Config σ) (names : List String) (v : Validation) :
    Except ConfigError (Config σ) :=
  (c.disable (c.rules.map (·.fullName)) v).bind (·.enable names v)

/-! ### Output -/

def format (c : Config σ) : Except ConfigError Format :=
  match Format.ofName? c.settings.formatName with
  | some f => .ok f
  | none => .error (.unknownFormat c.settings.formatName)

def setFormat (c : Config σ) (name : String) : Except ConfigError (Config σ) :=
  match Format.ofName? name with
  | some f => .ok { c with settings := { c.settings with formatName := f.name } }
  | none => .error (.unknownFormat name)

end Config

end Lintel
