import Lintel.Proofs.Session.Fidelity

/-!
# Sessions that are refused

A session ends with the exit code 2 if its arguments or its configuration are refused. One would
like to rely on it that nothing has been done by then, and mostly that is so: arguments are read,
the configuration is loaded and changed, and the rules are chosen before a single source is
corrected.

The format of the report is looked up too late. A configuration file may name a format that does
not exist. The name is read as any other text, and it is not looked at again before there is a
report to print, when the corrected sources have been written back. `Session.RefusedLate` describes
these sessions, and by `Session.run_refused` they are the only ones: a session that is refused in
any other way leaves the disk as it was. A format that is given as an argument is checked at once.
`Session.runUnformatted_corrects` is a run that corrects a file and is then refused.
-/

namespace Lintel

variable {σ : Type}

/-! ### The format -/

namespace Config

variable {c c' : Config σ} {v : Validation}

theorem updateRule_settings {name : String} {u : RuleUpdate} (h : c.updateRule name u v = .ok c') :
    c'.settings = c.settings := by
  obtain ⟨_, _, _, -, -, -, rfl⟩ := exists_of_updateRule h
  rfl

theorem updateEach_settings (u : RuleUpdate) (v : Validation) (names : List String) (c : Config σ) :
    (updateEach u v names c).config.settings = c.settings :=
  updateEach_induction (P := fun c' => c'.settings = c.settings)
    (fun _ _ _ hc h => (updateRule_settings h).trans hc) rfl names

theorem updateRules_settings {names : List String} {u : RuleUpdate}
    (h : (c.updateRules names u v).result = .ok c') : c'.settings = c.settings := by
  unfold Updated.result at h
  split at h
  · cases h
  · cases h
    exact updateEach_settings u v _ c

theorem enableOnly_settings {names : List String} (h : c.enableOnly names v = .ok c') :
    c'.settings = c.settings := by
  obtain ⟨c₁, hdisabled, henabled⟩ := exists_of_bind_eq_ok h
  rw [updateRules_settings henabled, updateRules_settings hdisabled]

theorem format_eq_error_iff {e : ConfigError} :
    c.format = .error e ↔ Format.ofName? c.settings.formatName = none ∧
      e = .unknownFormat c.settings.formatName := by
  unfold format
  cases Format.ofName? c.settings.formatName with
  | some f => simp
  | none => simp [eq_comm]

end Config

namespace Invocation

variable {i : Invocation} {c c' : Config σ} {v : Validation} {libs : Libraries}

/-- **What arguments set**: the globs, the format and the budget, each if they ask for it. -/
theorem adjust_settings (h : i.adjust c v = .ok c') : ∃ limit, c'.settings =
    { c.settings with
      globs := if i.paths.isEmpty then c.settings.globs else i.paths
      formatName := match i.format with
        | some f => f.name
        | none => c.settings.formatName
      maxIterations := limit } := by
  obtain ⟨c₁, c₂, hchosen, hwithout, rfl⟩ := exists_of_adjust h
  -- choosing rules touches rules alone
  have hc₁ : c₁.settings = (i.prepared c).settings := by
    rcases hchosen with rfl | honly
    · rfl
    · exact Config.enableOnly_settings honly
  have hc₂ : c₂.settings = (i.prepared c).settings :=
    (Config.updateRules_settings hwithout).trans hc₁
  refine ⟨(i.limited c₂).settings.maxIterations, ?_⟩
  have hlimited : (i.limited c₂).settings
      = { c₂.settings with maxIterations := (i.limited c₂).settings.maxIterations } := rfl
  rw [hlimited, hc₂]
  rfl

/-- **The format of a configuration** is known if the arguments chose it; otherwise its name is the
one that was loaded. -/
theorem format_of_configure {catalog : Catalog σ} {disk : Disk} {env : Environment}
    (h : i.configure catalog disk env libs = .ok c) :
    ∃ loaded, Config.load catalog disk env env.cwd i.config.toOption libs = .ok loaded ∧
      ∀ e, c.format = .error e ↔ i.format = none ∧
        Format.ofName? loaded.settings.formatName = none ∧
        e = .unknownFormat loaded.settings.formatName := by
  unfold configure at h
  split at h
  · cases h
  · obtain ⟨loaded, hload, h⟩ := exists_of_bind_eq_ok h
    obtain ⟨limit, hsettings⟩ := adjust_settings (eq_ok_of_mapError h)
    refine ⟨loaded, hload, fun e => ?_⟩
    rw [Config.format_eq_error_iff, hsettings]
    -- a format that the arguments name is one that exists
    cases i.format with
    | none => simp
    | some f => simp

/-- The rules that an inspection ran are those of the configuration it was made for. -/
theorem config_of_inspect {parser : Parser σ} {disk : Disk} {cwd : String} {w : World σ}
    {n : Inspection σ} (h : i.inspect c parser disk cwd w = .ok n) : n.config = c := by
  unfold inspect at h
  obtain ⟨ss, -, h⟩ := exists_of_bind_eq_ok h
  -- neither a fault of the globs nor a blank number of jobs nor a lack of rules
  split at h
  · cases h
  · unfold inspectSources at h
    split at h
    · cases h
    · cases h
      rfl

end Invocation

/-! ### Conclusions -/

theorem Ending.exitCode_eq_two_iff {e : Ending} :
    e.exitCode = 2 ↔ e = .stopped .misuse ∨ ∃ why, e = .failed (.config why) := by
  cases e with
  | stopped why => cases why <;> simp [exitCode, Invocation.Stop.exitCode]
  | failed why => cases why <;> simp [exitCode]
  | finished success => cases success <;> simp [exitCode]

namespace Inspection

variable {n : Inspection σ} {libs : Libraries}

theorem writeTodo_not_refused (now : Moment) (cwd : String) (d : Disk) (why : ConfigError) :
    (n.writeTodo now cwd d libs).ending ≠ .failed (.config why) := by
  unfold writeTodo
  simp only
  split
  · simp
  · split <;> simp

theorem printReport_disk (level : Choice Severity) (now : Moment) (d : Disk) :
    (n.printReport level now d libs).disk = d := by
  unfold printReport
  split <;> rfl

theorem printReport_refused_iff {level : Choice Severity} {now : Moment} {d : Disk}
    {why : ConfigError} :
    (n.printReport level now d libs).ending = .failed (.config why) ↔
      n.config.format = .error why := by
  unfold printReport
  cases n.config.format with
  | error e => simp
  | ok f => cases level <;> simp [verdict]

theorem conclude_not_stopped {i : Invocation} {now : Moment} {cwd : String} {d : Disk}
    (why : Invocation.Stop) : (n.conclude i now cwd d libs).ending ≠ .stopped why := by
  unfold conclude
  -- A stop comes from the reading of the arguments; what concludes a run ends or fails.
  split
  · simp
  · split
    · unfold writeTodo
      simp only
      split
      · simp
      · split <;> simp
    · unfold printReport
      split
      · simp
      · unfold verdict
        split <;> simp

/-- **When the conclusion of an inspection is refused**: there is a report to print in a format that
is unknown. By then the corrected sources are written, if that was asked for. -/
theorem conclude_refused_iff {i : Invocation} {now : Moment} {cwd : String} {d d' : Disk}
    {why : ConfigError} :
    ((n.conclude i now cwd d libs).ending = .failed (.config why) ∧
        (n.conclude i now cwd d libs).disk = d') ↔
      (if i.fix then n.writeSources cwd d else .ok d) = .ok d' ∧ i.genConfig = false ∧
        n.config.format = .error why := by
  unfold conclude
  cases hwritten : (if i.fix then n.writeSources cwd d else .ok d : Except Fault Disk) with
  | error f => simp
  | ok d₁ =>
    -- a to-do list needs no format
    cases hgen : i.genConfig with
    | true => simp [writeTodo_not_refused]
    | false =>
      simp only [Bool.false_eq_true, if_false, printReport_refused_iff, printReport_disk,
        Except.ok.injEq, true_and]
      exact and_comm

end Inspection

/-! ### Sessions -/

namespace Session

/-- **A session that is refused late**: it corrects files and prints a report, and the configuration
that was loaded names a format that does not exist. `d'` is the disk with the corrected files. -/
structure RefusedLate (catalog : Catalog σ) (parser : Parser σ) (env : Environment)
    (args : List String) (d : Disk) (w : World σ) (libs : Libraries) (i : Invocation)
    (loaded : Config σ) (n : Inspection σ) (d' : Disk) : Prop where
  asked : Invocation.ofArguments args = .ok i
  fix : i.fix = true
  noTodo : i.genConfig = false
  noFormat : i.format = none
  load : Config.load catalog d env env.cwd i.config.toOption libs = .ok loaded
  unknown : Format.ofName? loaded.settings.formatName = none
  inspected : inspection? catalog parser env args d w libs = some n
  written : n.writeSources env.cwd d = .ok d'

section

variable {catalog : Catalog σ} {parser : Parser σ} {env : Environment} {now : Moment}
  {args : List String} {d : Disk} {w : World σ} {libs : Libraries}

/-- A session either ends with the disk as it was, or concludes an inspection. -/
theorem run_cases (catalog : Catalog σ) (parser : Parser σ) (env : Environment) (now : Moment)
    (args : List String) (d : Disk) (w : World σ) (libs : Libraries) :
    (run catalog parser env now args d w libs).disk = d ∧
        inspection? catalog parser env args d w libs = none ∨
      ∃ i c n, Invocation.ofArguments args = .ok i ∧ i.configure catalog d env libs = .ok c ∧
        n.config = c ∧ inspection? catalog parser env args d w libs = some n ∧
        run catalog parser env now args d w libs = n.conclude i now env.cwd d libs := by
  unfold run inspection?
  cases hi : Invocation.ofArguments args with
  | error stop => exact .inl ⟨rfl, rfl⟩
  | ok i =>
    simp only
    unfold runInvocation
    cases hc : i.configure catalog d env libs with
    | error e => exact .inl ⟨rfl, rfl⟩
    | ok c =>
      simp only
      -- up to here nothing is written
      cases hn : i.inspect c parser d env.cwd w with
      | error e => exact .inl ⟨rfl, rfl⟩
      | ok n => exact .inr ⟨i, c, n, rfl, hc, Invocation.config_of_inspect hn, rfl, rfl⟩

theorem RefusedLate.ends {i : Invocation} {loaded : Config σ} {n : Inspection σ} {d' : Disk}
    (h : RefusedLate catalog parser env args d w libs i loaded n d') :
    (run catalog parser env now args d w libs).ending
        = .failed (.config (.unknownFormat loaded.settings.formatName)) ∧
      (run catalog parser env now args d w libs).disk = d' := by
  rcases run_cases catalog parser env now args d w libs with
    ⟨-, hnone⟩ | ⟨i', c, n', hi, hc, hconfig, hn, hrun⟩
  · rw [h.inspected] at hnone
    cases hnone
  · -- the run is determined, so its parts are those that are given
    obtain rfl : i' = i := Except.ok.inj (hi.symm.trans h.asked)
    obtain rfl : n' = n := Option.some.inj (hn.symm.trans h.inspected)
    obtain ⟨loaded', hload, hformat⟩ := Invocation.format_of_configure hc
    obtain rfl : loaded' = loaded := Except.ok.inj (hload.symm.trans h.load)
    rw [hrun]
    refine Inspection.conclude_refused_iff.mpr ⟨?_, h.noTodo, ?_⟩
    · rw [h.fix, if_pos rfl]
      exact h.written
    · rw [hconfig]
      exact (hformat _).mpr ⟨h.noFormat, h.unknown, rfl⟩

/-- **A session that is refused leaves the disk as it was, unless it is refused late.** -/
theorem exists_refusedLate
    (hexit : (run catalog parser env now args d w libs).ending.exitCode = 2)
    (hdisk : (run catalog parser env now args d w libs).disk ≠ d) :
    ∃ i loaded n, RefusedLate catalog parser env args d w libs i loaded n
      (run catalog parser env now args d w libs).disk := by
  rcases run_cases catalog parser env now args d w libs with
    ⟨hsame, -⟩ | ⟨i, c, n, hi, hc, hconfig, hn, hrun⟩
  · exact absurd hsame hdisk
  · rw [hrun] at hexit hdisk ⊢
    rcases Ending.exitCode_eq_two_iff.mp hexit with hstop | ⟨why, hrefused⟩
    · exact absurd hstop (Inspection.conclude_not_stopped _)
    · obtain ⟨hwritten, htodo, hunknown⟩ := Inspection.conclude_refused_iff.mp ⟨hrefused, rfl⟩
      obtain ⟨loaded, hload, hformat⟩ := Invocation.format_of_configure hc
      rw [hconfig] at hunknown
      obtain ⟨hnoFormat, hname, -⟩ := (hformat why).mp hunknown
      cases hfix : i.fix with
      | false =>
        -- nothing is written
        rw [hfix, if_neg (by decide)] at hwritten
        exact absurd (Except.ok.inj hwritten).symm hdisk
      | true =>
        rw [hfix, if_pos rfl] at hwritten
        exact ⟨i, loaded, n, hi, hfix, htodo, hnoFormat, hload, hname, hn, hwritten⟩

end

/-- **What a refused session has done.** Whatever the files, the libraries, the configuration and
the arguments are: if a session ends with the exit code 2, then the disk is as it was, or the
session was refused late. Exactly the sessions that are refused late have the corrected files on the
disk when they are refused for the name of the format. So a session is never refused late if it is
not asked to correct, if it is asked for a to-do list, if its format is given by an argument, or if
the format in the configuration exists. -/
theorem run_refused (catalog : Catalog σ) (parser : Parser σ) (env : Environment) (now : Moment)
    (args : List String) (d : Disk) (w : World σ) (libs : Libraries) :
    ((run catalog parser env now args d w libs).ending.exitCode = 2 →
      (run catalog parser env now args d w libs).disk = d ∨
        ∃ i loaded n, RefusedLate catalog parser env args d w libs i loaded n
          (run catalog parser env now args d w libs).disk) ∧
    ∀ i loaded n d', RefusedLate catalog parser env args d w libs i loaded n d' →
      (run catalog parser env now args d w libs).ending
          = .failed (.config (.unknownFormat loaded.settings.formatName)) ∧
        (run catalog parser env now args d w libs).disk = d' := by
  refine ⟨fun hexit => ?_, fun i loaded n d' h => h.ends⟩
  by_cases hdisk : (run catalog parser env now args d w libs).disk = d
  · exact .inl hdisk
  · exact .inr (exists_refusedLate hexit hdisk)

/-- A file with a trailing blank, next to a configuration that asks for a format which does not
exist. -/
def unformatted : Disk where
  files := [(["work", "a.rb"], [0x78, 0x20, 0x0A]),
    (["work", ".autolint.yml"], Utf8.ofString "Formatter:\n  Name: nope\n")]

def runUnformatted (args : List String) : Session Unit :=
  run Catalog.shipped Scripted.flatParser workshop ⟨⟨2000, 1, 2⟩, 3, 4, 5, 0, none⟩ args unformatted
    ⟨(), false, []⟩

/-- Arguments that name no rule are refused before anything is corrected. -/
theorem runUnformatted_unknownRule :
    (runUnformatted ["--fix", "--only", "Nope"]).ending
        = .failed (.config (.unknownRule "Nope")) ∧
      (runUnformatted ["--fix", "--only", "Nope"]).disk.file? ["work", "a.rb"]
        = some [0x78, 0x20, 0x0A] := by
  have hending : (runUnformatted ["--fix", "--only", "Nope"]).ending
      = .failed (.config (.unknownRule "Nope")) := by decide +kernel
  have hexit : (runUnformatted ["--fix", "--only", "Nope"]).ending.exitCode = 2 := by
    rw [hending]
    rfl
  obtain ⟨hkept, hlate⟩ := run_refused Catalog.shipped Scripted.flatParser workshop
    ⟨⟨2000, 1, 2⟩, 3, 4, 5, 0, none⟩ ["--fix", "--only", "Nope"] unformatted ⟨(), false, []⟩
    .builtin
  refine ⟨hending, ?_⟩
  rcases hkept hexit with hsame | ⟨i, loaded, n, hrefused⟩
  · unfold runUnformatted
    rw [hsame]
    rfl
  · -- it would have been refused for the format
    have hformat := hending.symm.trans (hlate i loaded n _ hrefused).1
    cases hformat

/-- **A session that is refused late has changed a file.** The configuration is wrong, so the exit
code is 2, but the trailing blank is gone. -/
theorem runUnformatted_corrects :
    (runUnformatted ["--fix"]).ending = .failed (.config (.unknownFormat "nope")) ∧
      (runUnformatted ["--fix"]).ending.exitCode = 2 ∧
      (runUnformatted ["--fix"]).disk.file? ["work", "a.rb"] = some [0x78, 0x0A] := by
  decide +kernel

end Session

end Lintel
