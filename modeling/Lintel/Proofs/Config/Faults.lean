import Lintel.Proofs.Config.Provenance

/-!
# Configuration files that end in a fault

A file that is no configuration is refused with an error of the configuration, which says what is
wrong with it. This holds for most files, but not for all: loading a file of the single octet 0xFF
ends in a fault, because that is no text. `Config.Faulty` says which files do so, and in which fault,
for any two libraries; by `Config.load_fault_iff` these are all of them, wherever the file is found.

**How.** The stages of loading come one after the other, and each has its own faults.

* The octets are made a text. They may be those of none.
* The text is read as a document. What the library for documents calls malformed is refused; anything
  else that it fails with is a fault.
* The keys of the document are told apart by their spellings. One may have none.
* Settings and rules are read. What is wrong with them is refused.
* Sections for unknown rules are listed by their names. If a name is not a text, they cannot be.
-/

namespace Lintel

variable {σ α β ε ε' : Type}

/-! ### Errors of one computation after the other -/

theorem bind_eq_error_iff {x : Except ε α} {f : α → Except ε β} {e : ε} :
    (x >>= f) = .error e ↔ x = .error e ∨ ∃ a, x = .ok a ∧ f a = .error e := by
  constructor
  · intro h
    cases x with
    | error e' =>
      cases h
      exact .inl rfl
    | ok a => exact .inr ⟨a, rfl, h⟩
  · rintro (rfl | ⟨a, rfl, h⟩)
    · rfl
    · exact h

theorem mapError_ne_fault {x : Except ε α} {g : ε → LoadError} {f : Fault}
    (h : ∀ e, ∃ e', g e = .config e') : x.mapError g ≠ .error (.fault f) := by
  cases x with
  | ok a => nofun
  | error e =>
    intro heq
    obtain ⟨e', he'⟩ := h e
    rw [Except.mapError, he'] at heq
    cases heq

theorem mapError_eq_ok_iff {x : Except ε α} {g : ε → ε'} {a : α} :
    x.mapError g = .ok a ↔ x = .ok a :=
  ⟨eq_ok_of_mapError, fun h => h ▸ rfl⟩

def Data.isText : Data → Bool
  | .text _ => true
  | _ => false

namespace Config

variable {libs : Libraries} {v : Validation} {catalog : Catalog σ} {entries : List (Data × Data)}
  {octets : Bytes} {path : Option String} {root : String} {f : Fault}

/-! ### Faulty files -/

def unspelled : Fault := .badValue Whole.unwritableMessage

def unlisted : Fault := .wrongKind "sections with octets as names cannot be listed"

inductive FaultyEntries (v : Validation) (catalog : Catalog σ) (entries : List (Data × Data)) :
    Fault → Prop where
  | unspelled {e : Data × Data} (he : e ∈ entries) (hlong : e.1.holdsTooLong = true) :
    FaultyEntries v catalog entries unspelled
  /-- Nothing is wrong but that there are sections for unknown rules, and one of them has a name
  that is not a text. -/
  | unlisted {settings : Settings} {rules : List (Rule σ)} {key : Data}
    (hkeys : ∀ e ∈ entries, e.1.holdsTooLong = false)
    (hsettings : Settings.ofEntries (entries.filter fun e => !isSectionKey e.1) v = .ok settings)
    (hrules : readRules (entries.filter fun e => isSectionKey e.1) v catalog.kinds = .ok rules)
    (hkey : key ∈ strangeSections catalog (entries.filter fun e => isSectionKey e.1))
    (htext : key.isText = false) : FaultyEntries v catalog entries unlisted

/-- **The octets of a file that ends in a fault**, with the fault. -/
inductive Faulty (libs : Libraries) (catalog : Catalog σ) (octets : Bytes) : Fault → Prop where
  | notText {bad : Utf8.BadBytes} (h : Disk.textOf octets = .error bad) :
    Faulty libs catalog octets (.notText bad)
  /-- The library for documents fails on the text, and does not call it malformed. -/
  | unread {text : String} {f : Fault} (htext : Disk.textOf octets = .ok text)
    (h : libs.documents.read text = .error (.fault f)) : Faulty libs catalog octets f
  /-- The document has entries that end in a fault. -/
  | entries {text : String} {entries : List (Data × Data)} {f : Fault}
    (htext : Disk.textOf octets = .ok text)
    (hread : libs.documents.read text = .ok (.map entries))
    (h : FaultyEntries libs.validation catalog entries f) : Faulty libs catalog octets f

/-! ### Reading entries -/

theorem checkKeys_fault_iff : checkKeys entries = .error (.fault f) ↔
    (∃ e ∈ entries, e.1.holdsTooLong = true) ∧ f = unspelled := by
  rw [checkKeys, ← List.any_eq_true]
  cases entries.any fun e => e.1.holdsTooLong with
  | true => simp [unspelled, eq_comm]
  | false => simp

theorem checkKeys_ok_iff {u : Unit} : checkKeys entries = .ok u ↔
    ∀ e ∈ entries, e.1.holdsTooLong = false := by
  rw [checkKeys]
  cases hany : entries.any fun e => e.1.holdsTooLong with
  | true => simpa using List.any_eq_true.mp hany
  | false => simpa using List.any_eq_false.mp hany

theorem refuseStrange_fault_iff {keys : List Data} : refuseStrange keys = .error (.fault f) ↔
    (∃ key ∈ keys, key.isText = false) ∧ f = unlisted := by
  unfold refuseStrange
  split
  · exact ⟨nofun, fun ⟨⟨_, hkey, _⟩, _⟩ => nomatch hkey⟩
  · split
    · next htexts =>
      -- names that are texts are listed
      refine ⟨nofun, fun ⟨⟨key, hkey, htext⟩, _⟩ => ?_⟩
      have hself := List.all_eq_true.mp htexts key hkey
      cases key with
      | text name => cases htext
      | _ => cases hself
    · next htexts =>
      -- otherwise one of them is no text
      rw [List.all_eq_true] at htexts
      push Not at htexts
      obtain ⟨key, hkey, hself⟩ := htexts
      have htext : key.isText = false := by
        cases key <;> first | rfl | exact absurd rfl hself
      refine ⟨fun h => ⟨⟨key, hkey, htext⟩, ?_⟩, fun ⟨_, hf⟩ => hf ▸ rfl⟩
      cases h
      rfl

theorem ofEntries_fault_iff : ofEntries catalog path root entries v = .error (.fault f) ↔
    FaultyEntries v catalog entries f := by
  have hnoSettings : ∀ x : Except (List Problem) Settings,
      x.mapError (fun ps => LoadError.config (.badSettings ps)) ≠ .error (.fault f) := fun x =>
    mapError_ne_fault fun _ => ⟨_, rfl⟩
  have hnoRules : ∀ x : Except ConfigError (List (Rule σ)),
      x.mapError LoadError.config ≠ .error (.fault f) := fun x =>
    mapError_ne_fault fun _ => ⟨_, rfl⟩
  unfold ofEntries
  rw [bind_eq_error_iff, checkKeys_fault_iff]
  -- Past the keys only the listing of strange sections can be a fault, and it is the last stage.
  simp only [bind_eq_error_iff, hnoSettings, hnoRules, mapError_eq_ok_iff, checkKeys_ok_iff,
    refuseStrange_fault_iff, false_or, reduceCtorEq, and_false, exists_false, or_false]
  constructor
  · rintro (⟨⟨e, he, hlong⟩, rfl⟩ | ⟨-, hkeys, settings, hsettings, rules, hrules, ⟨key, hkey, htext⟩,
      rfl⟩)
    · exact .unspelled he hlong
    · exact .unlisted hkeys hsettings hrules hkey htext
  · rintro (⟨he, hlong⟩ | ⟨hkeys, hsettings, hrules, hkey, htext⟩)
    · exact .inl ⟨⟨_, he, hlong⟩, rfl⟩
    · exact .inr ⟨(), hkeys, _, hsettings, _, hrules, ⟨_, hkey, htext⟩, rfl⟩

theorem not_faultyEntries_nil : ¬ FaultyEntries v catalog [] f := by
  rintro (⟨he, -⟩ | ⟨-, -, -, hkey, -⟩)
  · cases he
  · cases hkey

theorem ofData_fault_iff {d : Data} : ofData catalog path root d v = .error (.fault f) ↔
    ∃ entries, d = .map entries ∧ FaultyEntries v catalog entries f := by
  unfold ofData
  split
  · rw [ofEntries_fault_iff]
    exact ⟨fun h => absurd h not_faultyEntries_nil, fun ⟨_, hd, _⟩ => nomatch hd⟩
  · rw [ofEntries_fault_iff]
    simp
  · -- neither null nor a mapping: the error is one of the configuration
    next hmap =>
    constructor
    · nofun
    · rintro ⟨entries, rfl, -⟩
      exact absurd rfl (hmap entries)

/-! ### Loading -/

theorem readFile_fault_iff {d : Documents} : readFile d octets = .error (.fault f) ↔
    (∃ bad, Disk.textOf octets = .error bad ∧ f = .notText bad) ∨
      ∃ text, Disk.textOf octets = .ok text ∧ d.read text = .error (.fault f) := by
  unfold readFile
  cases Disk.textOf octets with
  -- Octets that are no text fault before the documents library sees anything.
  | error bad => simp [eq_comm]
  | ok text =>
    unfold readText
    -- An error of the library is passed on only when it is a fault; its syntax errors become errors
    -- of the configuration.
    cases hread : d.read text with
    | ok data => simp [hread]
    | error e => cases e <;> simp [hread]

theorem readFile_ok_iff {d : Documents} {data : Data} : readFile d octets = .ok data ↔
    ∃ text, Disk.textOf octets = .ok text ∧ ∃ data', d.read text = .ok data' ∧
      (if data'.isNothing then .map [] else data') = data := by
  unfold readFile
  cases Disk.textOf octets with
  | error bad => simp
  -- null and what else says nothing is read as a mapping without entries
  | ok text =>
    unfold readText
    cases hread : d.read text with
    | ok data' => simp [hread]
    | error e => cases e <;> simp [hread]

/-- A document that says nothing has no entries, and then none that end in a fault. -/
theorem faultyEntries_orNothing_iff {d : Data} :
    (∃ entries, (if d.isNothing then .map [] else d) = .map entries ∧
      FaultyEntries v catalog entries f) ↔
    ∃ entries, d = .map entries ∧ FaultyEntries v catalog entries f := by
  split
  · next hnothing =>
    constructor
    · rintro ⟨_, heq, h⟩
      cases heq
      exact absurd h not_faultyEntries_nil
    · rintro ⟨entries, rfl, h⟩
      cases entries with
      | nil => exact absurd h not_faultyEntries_nil
      -- a mapping with an entry does not count as nothing
      | cons e es => cases hnothing
  · exact Iff.rfl

section Load

variable {disk : Disk} {env : Environment}

theorem ofFile_fault_iff {file : String} (hread : disk.read? env.cwd file = some octets) :
    ofFile catalog disk env root (some file) libs = .error (.fault f) ↔
      Faulty libs catalog octets f := by
  unfold ofFile
  rw [Option.bind_some, hread]
  simp only [bind_eq_error_iff, readFile_fault_iff, readFile_ok_iff, ofData_fault_iff]
  -- octets, text and entries: the three places where loading can fail otherwise
  constructor
  · rintro ((⟨bad, hbad, rfl⟩ | ⟨text, htext, h⟩) | ⟨_, ⟨text, htext, data, hdata, rfl⟩, h⟩)
    · exact .notText hbad
    · exact .unread htext h
    · obtain ⟨entries, rfl, hentries⟩ := faultyEntries_orNothing_iff.mp h
      exact .entries htext hdata hentries
  · rintro (hbad | ⟨htext, h⟩ | ⟨htext, hdata, h⟩)
    · exact .inl (.inl ⟨_, hbad, rfl⟩)
    · exact .inl (.inr ⟨_, htext, h⟩)
    · exact .inr ⟨_, ⟨_, htext, _, hdata, rfl⟩, faultyEntries_orNothing_iff.mpr ⟨_, rfl, h⟩⟩

theorem ofFile_ne_fault (h : path.bind (disk.read? env.cwd) = none) :
    ofFile catalog disk env root path libs ≠ .error (.fault f) := by
  unfold ofFile
  rw [h]
  -- No file stands at the path, so the empty mapping is validated, and it has no entry to blame.
  intro hfault
  change ofData catalog path root (.map []) libs.validation = _ at hfault
  obtain ⟨entries, hentries, hfault⟩ := ofData_fault_iff.mp hfault
  cases hentries
  exact not_faultyEntries_nil hfault

/-- The file that a configuration is loaded from: the given one, or the one that is found. -/
def fileOf (disk : Disk) (env : Environment) (root : String) (path : Option String) :
    Option String :=
  path.or (findFile disk env root)

def FaultyFile (libs : Libraries) (catalog : Catalog σ) (disk : Disk) (env : Environment)
    (root : String) (path : Option String) (f : Fault) : Prop :=
  ∃ file octets, fileOf disk env root path = some file ∧ disk.read? env.cwd file = some octets ∧
    Faulty libs catalog octets f

/-- **Loading ends in a fault** exactly if the configuration file does, wherever it is given or
found. -/
theorem load_fault_iff : load catalog disk env root path libs = .error (.fault f) ↔
    FaultyFile libs catalog disk env root path f := by
  -- of a file that is named or found, and of no file
  have hsome : ∀ p : Option String, ofFile catalog disk env root p libs = .error (.fault f) ↔
      ∃ file octets, p = some file ∧ disk.read? env.cwd file = some octets ∧
        Faulty libs catalog octets f := by
    intro p
    cases hread : p.bind (disk.read? env.cwd) with
    | none =>
      refine ⟨fun h => absurd h (ofFile_ne_fault hread), fun ⟨file, octets, hfile, hoctets, _⟩ => ?_⟩
      rw [hfile, Option.bind_some, hoctets] at hread
      cases hread
    | some octets =>
      obtain ⟨file, rfl, hoctets⟩ := Option.bind_eq_some_iff.mp hread
      rw [ofFile_fault_iff hoctets]
      constructor
      · exact fun h => ⟨file, octets, rfl, hoctets, h⟩
      · rintro ⟨file', octets', hfile', hoctets', h⟩
        obtain rfl := Option.some.inj hfile'
        -- What the disk gives for a path is given once, so the octets are the same.
        obtain rfl := Option.some.inj (hoctets.symm.trans hoctets')
        exact h
  unfold load FaultyFile fileOf
  cases path with
  | none =>
    rw [Option.none_or]
    exact hsome (findFile disk env root)
  | some p =>
    rw [Option.some_or]
    simp only
    split
    · exact hsome (some p)
    · next hmissing =>
      -- a file that is not there is refused
      refine ⟨nofun, fun ⟨file, octets, hfile, hoctets, _⟩ => absurd ?_ hmissing⟩
      obtain rfl := Option.some.inj hfile
      unfold Disk.read? at hoctets
      unfold Disk.isFile
      split at hoctets
      · rfl
      · cases hoctets

end Load

end Config

end Lintel
