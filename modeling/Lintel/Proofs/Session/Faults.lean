import Lintel.Proofs.Config.Faults
import Lintel.Proofs.Disk.Globs
import Lintel.Proofs.Session.Refusal

/-!
# Sessions that end in a fault

A session may end in a fault for reasons of its own: a switch is blank whose value is needed, a path
is given that cannot be asked for, or a folder is where a file is to be written. If there are none
of these (`Session.Unhindered`), then only the configuration file is left as a reason: the session
ends in a fault exactly if its configuration file is faulty, and then in the fault of that
(`Session.ends_in_fault_iff`). Nothing else that a file says makes a later stage fail: the formats
that it names may be unknown, but that is an error of the configuration.

**How.** Each stage of a session after loading ensures that it ends in no fault. The last one writes
several files one after the other. Every file that is written was read before, so it is written over
and no place on the disk becomes that of a file or of a folder (`Disk.SamePlaces`).
-/

namespace Lintel

variable {σ : Type}

def LoadError.IsConfig (e : LoadError) : Prop := ∃ e', e = .config e'

/-! ### Places that stay as they are -/

namespace Disk

structure SamePlaces (d d' : Disk) : Prop where
  files : d'.files.map (·.1) = d.files.map (·.1)
  folders : d'.folders = d.folders

theorem SamePlaces.refl (d : Disk) : SamePlaces d d := ⟨rfl, rfl⟩

theorem isSome_file? (d : Disk) (place : List String) :
    (d.file? place).isSome = (d.files.map (·.1)).contains place := by
  rw [Bool.eq_iff_iff, List.contains_iff_mem, List.mem_map]
  unfold file?
  simp [List.find?_isSome]

namespace SamePlaces

variable {d d' : Disk} (h : SamePlaces d d')
include h

theorem isSome_file? (place : List String) : (d'.file? place).isSome = (d.file? place).isSome := by
  rw [Disk.isSome_file?, Disk.isSome_file?, h.files]

theorem hasFolder (place : List String) : d'.hasFolder place = d.hasFolder place := by
  have hplaces : d'.places = d.places := by
    rw [places, places, h.files, h.folders]
  have hnone : (d'.file? place).isNone = (d.file? place).isNone := by
    rw [← Option.not_isSome, ← Option.not_isSome, h.isSome_file?]
  rw [Disk.hasFolder, Disk.hasFolder, hplaces, hnone, h.folders]

theorem put {place : List String} (hthere : (d.file? place).isSome = true) (octets : Bytes) :
    SamePlaces d (d'.put place octets) := by
  rw [← h.isSome_file?] at hthere
  unfold Disk.put
  rw [if_pos hthere]
  refine ⟨?_, h.folders⟩
  rw [← h.files, List.map_map]
  -- a file that is written over keeps its place
  refine List.map_congr_left fun f _ => ?_
  simp only [Function.comp]
  split
  · next heq => exact heq.symm
  · rfl

end SamePlaces

theorem Written.succeeds {d : Disk} {place : List String} {octets : Bytes} {x : Except Fault Disk}
    (h : Written d place octets x) (hfree : d.hasFolder place = false) :
    Succeeds (fun d' => d' = d ∨ d' = d.put place octets) x := by
  cases h with
  | nowhere => exact .ok (.inl rfl)
  | inTheWay path hway =>
    rw [hfree] at hway
    cases hway
  | there _ => exact .ok (.inr rfl)

end Disk

/-! ### Configuring and inspecting -/

namespace Invocation

variable {i : Invocation} {c : Config σ}

/-- **Configuring** ends in the faults of loading. -/
theorem configure_fault_iff (hfilled : i.config ≠ .blank) {catalog : Catalog σ} {disk : Disk}
    {env : Environment} {libs : Libraries} {f : Fault} :
    i.configure catalog disk env libs = .error (.fault f) ↔
      Config.load catalog disk env env.cwd i.config.toOption libs = .error (.fault f) := by
  have hadjust : ∀ c : Config σ,
      (i.adjust c libs.validation).mapError LoadError.config ≠ .error (.fault f) := fun c =>
    mapError_ne_fault fun _ => ⟨_, rfl⟩
  rw [configure, if_neg hfilled, bind_eq_error_iff]
  simp only [hadjust, and_false, exists_false, or_false]

/-- **Inspecting** ends in no fault if the globs can be worked off. -/
theorem ensures_inspect (hfilled : i.jobs ≠ .blank) {parser : Parser σ} {disk : Disk}
    {cwd : String} {w : World σ} (hdisk : disk.Askable) (hroot : Path.Askable c.root)
    (hglobs : ∀ g ∈ c.settings.globs, Path.Askable g) :
    Ensures LoadError.IsConfig (fun _ => True) (i.inspect c parser disk cwd w) := by
  have hsources : Ensures LoadError.IsConfig (fun _ => True)
      ((c.sources disk cwd).mapError .fault) :=
    (Config.ensures_sources cwd hdisk hroot hglobs).mapError fun _ he => nomatch he
  unfold inspect
  -- once the sources are there, only a lack of rules can end it, and that is no fault
  refine hsources.bind fun ss _ => ?_
  rw [if_neg hfilled]
  unfold inspectSources
  split
  · exact .error ⟨_, rfl⟩
  · exact .ok trivial

/-- The globs of a run are its paths, or those that were loaded. -/
theorem askable_of_configure {catalog : Catalog σ} {disk : Disk} {env : Environment}
    {libs : Libraries} (h : i.configure catalog disk env libs = .ok c)
    (hpaths : ∀ p ∈ i.paths, Path.Askable p)
    (hloaded : ∀ loaded, Config.load catalog disk env env.cwd i.config.toOption libs = .ok loaded →
      ∀ g ∈ loaded.settings.globs, Path.Askable g) :
    ∀ g ∈ c.settings.globs, Path.Askable g := by
  unfold configure at h
  split at h
  · cases h
  · obtain ⟨loaded, hload, h⟩ := exists_of_bind_eq_ok h
    -- of what the arguments change only the globs matter
    obtain ⟨limit, hsettings⟩ := adjust_settings (eq_ok_of_mapError h)
    rw [hsettings]
    simp only
    split
    · exact hloaded loaded hload
    · exact hpaths

end Invocation

/-! ### Writing -/

namespace Inspection

variable {n : Inspection σ} {d : Disk} {cwd : String}

def ReadFrom (n : Inspection σ) (d : Disk) (cwd : String) : Prop :=
  ∀ r ∈ n.report.sources, ∃ file octets, d.read? cwd file = some octets ∧
    r.path = some (Path.relative cwd file cwd)

theorem readFrom_of_inspect {i : Invocation} {c : Config σ} (hroot : c.root = cwd)
    {parser : Parser σ} {w : World σ} (h : i.inspect c parser d cwd w = .ok n) :
    n.ReadFrom d cwd := by
  obtain ⟨-, e, -, hreports⟩ := Invocation.exists_loops_of_inspect h
  intro r hr
  obtain ⟨file, octets, text, w', states, t, hread, -, hloops, hsource⟩ := hreports r hr
  have hpath := (hloops.origin.trans (Engine.reportAfter_origin (e := e) t).1).path
  rw [← hsource, hroot] at hpath
  exact ⟨file, octets, hread, hpath⟩

section Files

variable (hcwd : Path.isAbsolute cwd = true) (hfolder : d.isFolder cwd cwd = true)
  (hread : n.ReadFrom d cwd)
include hcwd hfolder hread

theorem ensures_writeSource {r : SourceReport} (hr : r ∈ n.report.sources) {d' : Disk}
    (hd : d.SamePlaces d') : Succeeds d.SamePlaces (writeSource cwd cwd d' r) := by
  obtain ⟨file, octets, hfile, hpath⟩ := hread r hr
  have hthere := Disk.file?_of_read? hfile
  unfold writeSource
  rw [hpath]
  simp only
  split
  · -- there is a file, so there is no folder
    have hfree : d'.hasFolder (Path.place (Path.join cwd file)) = false := by
      rw [hd.hasFolder]
      exact Disk.hasFolder_of_file hthere
    have hwritten := Disk.written_relative hcwd hfolder hfile d' (Utf8.ofString r.source.text)
    refine (hwritten.succeeds hfree).mono (fun _ he => he) fun d'' hd'' => ?_
    rcases hd'' with rfl | rfl
    · exact hd
    · exact hd.put (by rw [hthere, Option.isSome_some]) _
  · exact .ok hd

/-- **Writing the corrected sources back** is no fault and leaves all places as they are. -/
theorem ensures_writeSources (hroot : n.config.root = cwd) :
    Succeeds d.SamePlaces (n.writeSources cwd d) := by
  unfold writeSources
  rw [hroot]
  exact Ensures.foldlM (.refl d) fun d' hd r hr => ensures_writeSource hcwd hfolder hread hr hd

end Files

/-! ### Concluding -/

theorem writeTodo_no_fault {env : Environment} (hcwd : Path.isAbsolute env.cwd = true)
    (hroot : n.config.root = env.cwd) (hfree : d.hasFolder env.todoPlace = false) (now : Moment)
    (libs : Libraries) (f : Fault) :
    (n.writeTodo now env.cwd d libs).ending ≠ .failed (.fault f) := by
  have hwritten := env.written_todo hcwd d
    (Utf8.ofString (Todo.render now n.report libs.documents))
  unfold writeTodo
  rw [hroot]
  simp only
  split
  · simp
  · split
    · -- the place is the one of the configuration file, where no folder is
      next f' h => exact absurd ((hwritten.succeeds hfree).bad_of_error h) id
    · simp

theorem printReport_no_fault {level : Choice Severity} (hfilled : level ≠ .blank) (now : Moment)
    (d : Disk) (libs : Libraries) (f : Fault) :
    (n.printReport level now d libs).ending ≠ .failed (.fault f) := by
  unfold printReport
  split
  · simp
  · unfold verdict
    split
    · -- Only a level that is blank could fail here, and this one is filled.
      exact absurd rfl hfilled
    · simp

/-- **Concluding** an inspection ends in no fault. -/
theorem conclude_no_fault {env : Environment} {i : Invocation}
    (hcwd : Path.isAbsolute env.cwd = true) (hfolder : d.isFolder env.cwd env.cwd = true)
    (hroot : n.config.root = env.cwd) (hread : n.ReadFrom d env.cwd)
    (hfilled : i.failLevel ≠ .blank)
    (hfree : i.genConfig = true → d.hasFolder env.todoPlace = false) (now : Moment)
    (libs : Libraries) (f : Fault) : (n.conclude i now env.cwd d libs).ending ≠ .failed (.fault f) := by
  -- Corrected files are written to places where files were read from.
  have hwritten : Succeeds d.SamePlaces (if i.fix then n.writeSources env.cwd d else .ok d) := by
    split
    · exact ensures_writeSources hcwd hfolder hread hroot
    · exact .ok (.refl d)
  unfold conclude
  split
  · next f' h => exact absurd (hwritten.bad_of_error h) id
  · next d' h =>
    split
    · next hgen =>
      have hfree' : d'.hasFolder env.todoPlace = false := by
        rw [(hwritten.good_of_ok h).hasFolder]
        exact hfree hgen
      exact writeTodo_no_fault hcwd hroot hfree' now libs f
    · exact printReport_no_fault hfilled now d' libs f

end Inspection

/-! ### Sessions -/

namespace Session

/-- Nothing but the configuration file can make a session end in a fault. -/
structure Unhindered (env : Environment) (args : List String) (d : Disk) : Prop where
  /-- The working directory is a folder. -/
  absolute : Path.isAbsolute env.cwd = true
  folder : d.isFolder env.cwd env.cwd = true
  /-- The working directory, the names on the disk and the given paths can be asked for. -/
  cwd : Path.Askable env.cwd
  names : d.Askable
  paths : ∀ i, Invocation.ofArguments args = .ok i → ∀ p ∈ i.paths, Path.Askable p
  /-- No switch is blank whose value is needed. -/
  filled : ∀ i, Invocation.ofArguments args = .ok i →
    i.config ≠ .blank ∧ i.jobs ≠ .blank ∧ i.failLevel ≠ .blank
  /-- No folder is where a to-do list is to be written. -/
  free : asksForTodo args = true → d.hasFolder env.todoPlace = false

section Run

variable {libs : Libraries} {catalog : Catalog σ} {parser : Parser σ} {env : Environment}
  {now : Moment} {args : List String} {d : Disk} {w : World σ} {i : Invocation} {f : Fault}

/-- **A session that is not hindered ends in a fault** exactly if loading its configuration does, and
in the same one. -/
theorem run_fault_iff (h : Unhindered env args d) (hi : Invocation.ofArguments args = .ok i)
    (hglobs : ∀ c, Config.load catalog d env env.cwd i.config.toOption libs = .ok c →
      ∀ g ∈ c.settings.globs, Path.Askable g) :
    (run catalog parser env now args d w libs).ending = .failed (.fault f) ↔
      Config.load catalog d env env.cwd i.config.toOption libs = .error (.fault f) := by
  obtain ⟨hconfig, hjobs, hlevel⟩ := h.filled i hi
  rw [← Invocation.configure_fault_iff hconfig]
  unfold run
  rw [hi]
  simp only
  unfold runInvocation
  -- Past loading each stage may end with an error of the configuration, but none with a fault.
  cases hc : i.configure catalog d env libs with
  | error e => simp
  | ok c =>
    have hroot := (Invocation.of_configure hc).root
    -- The run itself, for sources that can be asked for, ends with errors of the configuration at
    -- most.
    have hinspect : Ensures LoadError.IsConfig (fun _ => True) (i.inspect c parser d env.cwd w) :=
      Invocation.ensures_inspect hjobs h.names (hroot ▸ h.cwd)
        (Invocation.askable_of_configure hc (h.paths i hi) hglobs)
    simp only [reduceCtorEq, iff_false]
    cases hn : i.inspect c parser d env.cwd w with
    | error e =>
      obtain ⟨e', rfl⟩ := hinspect.bad_of_error hn
      simp
    | ok n =>
      -- A file for the sections can be written where no folder stands.
      have hfree : i.genConfig = true → d.hasFolder env.todoPlace = false := by
        have hfree := h.free
        rwa [asksForTodo, hi] at hfree
      have hroot' : n.config.root = env.cwd := by
        rw [Invocation.config_of_inspect hn, hroot]
      exact Inspection.conclude_no_fault h.absolute h.folder hroot'
        (Inspection.readFrom_of_inspect hroot hn) hlevel hfree now libs f

end Run

/-- A configuration that switches a rule off. -/
def tidyConfig : String := "Globs: [a.rb]\nLayout/TrailingWhitespace:\n  Enabled: no\n"

/-- A file with a trailing blank, next to a configuration file. -/
def configured (octets : Bytes) : Disk where
  files := [(["work", "a.rb"], [0x78, 0x20, 0x0A]), (["work", ".autolint.yml"], octets)]

def runConfigured (octets : Bytes) : Session Unit :=
  run Catalog.shipped Scripted.flatParser workshop ⟨⟨2000, 1, 2⟩, 3, 4, 5, 0, none⟩ []
    (configured octets) ⟨(), false, []⟩

/-- Nothing but the configuration file can hinder these runs. -/
theorem unhindered_configured : Unhindered workshop [] (configured (Utf8.ofString tidyConfig)) := by
  have hargs : Invocation.ofArguments [] = .ok {} := by decide +kernel
  refine ⟨by decide, by decide +kernel, by decide +kernel, ?_, ?_, ?_, ?_⟩
  · -- two places, and no name of them has the null character
    have hnames : ∀ place ∈ (configured (Utf8.ofString tidyConfig)).places, ∀ n ∈ place,
        Path.Askable n := by decide +kernel
    exact hnames
  · intro i hi p hp
    obtain rfl : ({} : Invocation) = i := Except.ok.inj (hargs.symm.trans hi)
    cases hp
  · intro i hi
    obtain rfl : ({} : Invocation) = i := Except.ok.inj (hargs.symm.trans hi)
    decide
  · rw [asksForTodo, hargs]
    exact fun hgen => nomatch hgen

end Session

end Lintel
