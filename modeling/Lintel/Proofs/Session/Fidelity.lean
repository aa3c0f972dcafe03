import Lintel.Proofs.Config.Provenance
import Lintel.Proofs.Disk.Writing
import Lintel.Proofs.Engine.Origin
import Lintel.Proofs.Engine.Substance
import Lintel.Proofs.Ensures
import Lintel.Scripted

/-!
# What a session does to the files on a disk

A session with the rules of the library writes to two kinds of places: to files whose texts were
corrected, and to the configuration file if a to-do list is asked for. All other files stay as they
are, octet for octet.

A corrected file keeps its substance **as it was read**. The rules leave the substance of a text
alone, whatever the parser says and also if the source is given up, and the file is written back to
where it came from. But carriage returns are gone once a file has been read, so its substance on the
disk is kept exactly if it held none (`run_keeps_files`). A file with the line ends of another
system comes back with line feeds alone as soon as one trailing blank is removed from it
(`correctFile_loses_carriageReturn`).
-/

namespace Lintel

variable {σ : Type}

/-! ### What was read -/

structure SourceReport.OnFile (r : SourceReport) (d : Disk) (cwd file : String) (octets : Bytes) :
    Prop where
  read : d.read? cwd file = some octets
  path : r.source.path = some (Path.relative cwd file cwd)
  initial : Disk.textOf octets = .ok r.source.initial
  substance : substance (Utf8.ofString r.source.text) = substance (Utf8.ofString r.source.initial)

theorem Config.exists_of_mem_sources {c : Config σ} {d : Disk} {cwd : String} {ss : List Source}
    (h : c.sources d cwd = .ok ss) {s : Source} (hs : s ∈ ss) :
    ∃ file octets text, d.read? cwd file = some octets ∧ Disk.textOf octets = .ok text ∧
      s = Source.ofText text (some (Path.relative cwd file c.root)) := by
  obtain ⟨files, -, rfl⟩ := exists_of_map_eq_ok h
  obtain ⟨file, -, hsource⟩ := List.mem_filterMap.mp hs
  unfold Config.source? at hsource
  split at hsource
  · cases hsource
  · -- the file is there; it is a source only if it is text
    next octets hread =>
    split at hsource
    · next text htext =>
      cases hsource
      exact ⟨file, octets, text, hread, htext, rfl⟩
    · cases hsource

theorem Engine.shipped_of_ok {rules : List (Rule σ)} (hr : ∀ r ∈ rules, r.kind ∈ Rules.shipped)
    {parser : Parser σ} {cwd : String} {budget : Int} {e : Engine σ}
    (h : ofRules rules parser cwd budget = .ok e) : e.Shipped := by
  -- An empty list of rules is refused, so there was at least one.
  have hne : rules ≠ [] := by
    rintro rfl
    cases h
  obtain ⟨e', he', hshipped, -⟩ := shipped_of_ofRules hne hr parser cwd budget
  rw [h] at he'
  cases he'
  exact hshipped

namespace Invocation

variable {i : Invocation}

theorem checkBudget_source (e : Engine σ) (r : SourceReport) :
    (i.checkBudget e r).source = r.source := by
  unfold checkBudget
  split
  · rfl
  · rfl

/-- **The reports of an inspection** are what is left after the loops of an engine on files of the
disk. -/
theorem exists_loops_of_inspect {c : Config σ} {cwd : String} {parser : Parser σ} {d : Disk}
    {w : World σ} {n : Inspection σ} (h : i.inspect c parser d cwd w = .ok n) :
    n.config = c ∧
      ∃ e, Engine.ofRules c.enabledRules parser cwd c.settings.maxIterations = .ok e ∧
        ∀ r ∈ n.report.sources, ∃ file octets text w' states t,
          d.read? cwd file = some octets ∧ Disk.textOf octets = .ok text ∧
          e.Loops i.fix (Engine.start i.fix
            (Source.ofText text (some (Path.relative cwd file c.root)))) w' states t ∧
          r.source = (e.reportAfter t).source := by
  unfold inspect at h
  obtain ⟨ss, hsources, h⟩ := exists_of_bind_eq_ok h
  have hsources := eq_ok_of_mapError hsources
  split at h
  · cases h
  · unfold inspectSources at h
    split at h
    · cases h
    · next e he =>
      cases h
      refine ⟨rfl, e, he, fun r hr => ?_⟩
      -- A check of the budget changes what a report says, but not its source.
      obtain ⟨r', hr', rfl⟩ := List.mem_map.mp hr
      obtain ⟨s, hs, w', states, t, hloops, rfl⟩ :=
        (Engine.reports_run e i.fix ss w).exists_of_mem hr'
      obtain ⟨file, octets, text, hread, htext, rfl⟩ := Config.exists_of_mem_sources hsources hs
      exact ⟨file, octets, text, w', states, t, hread, htext, hloops, checkBudget_source e _⟩

/-- With the rules of the library the reports are on files that keep their substance. -/
theorem exists_onFile {c : Config σ} {cwd : String} (hc : c.Of Catalog.shipped cwd)
    {parser : Parser σ} {d : Disk} {w : World σ} {n : Inspection σ}
    (h : i.inspect c parser d cwd w = .ok n) :
    n.config.root = cwd ∧
      ∀ r ∈ n.report.sources, ∃ file octets, r.OnFile d cwd file octets := by
  obtain ⟨rfl, e, he, hreports⟩ := exists_loops_of_inspect h
  -- enabling, disabling and configuring rules does not bring in others
  have hkinds : ∀ r ∈ n.config.enabledRules, r.kind ∈ Rules.shipped := fun r hr =>
    Catalog.mem_shipped (hc.kinds r (List.mem_filter.mp hr).1)
  have hshipped := Engine.shipped_of_ok hkinds he
  refine ⟨hc.root, fun r hr => ?_⟩
  obtain ⟨file, octets, text, w', states, t, hread, htext, hloops, hsource⟩ := hreports r hr
  rw [hc.root] at hloops
  obtain ⟨horigin, hfinal⟩ := Engine.reportAfter_origin (e := e) t
  have hstart := hloops.origin.trans horigin
  obtain ⟨_, hkept, -⟩ := hloops.upheld graded_keepsSubstance hshipped.upholds_keepsSubstance
    (Source.coherent_ofText _ _) (Source.parsedBy_ofText _ _ _)
  refine ⟨file, octets, hread, ?_, ?_, ?_⟩
  · rw [hsource]
    exact hstart.path
  · rw [hsource, hstart.initial]
    exact htext
  · rw [hsource, hstart.initial, hfinal]
    exact hkept

end Invocation

/-! ### What is written -/

/-- A file of a disk was corrected: it was read from a place and comes back as the text of a
report. -/
structure Inspection.Corrects (n : Inspection σ) (d : Disk) (cwd : String) (place : List String)
    (before after : Bytes) (r : SourceReport) (file : String) : Prop where
  mem : r ∈ n.report.sources
  onFile : r.OnFile d cwd file before
  corrected : r.source.isCorrected = true
  place : Path.place (Path.join cwd file) = place
  after : after = Utf8.ofString r.source.text

def Inspection.Rewrites (n : Inspection σ) (cwd : String) (d d' : Disk) : Prop :=
  ∀ place before, d.file? place = some before →
    d'.file? place = some before ∨
      ∃ after r file, d'.file? place = some after ∧ n.Corrects d cwd place before after r file

namespace Inspection

variable {n : Inspection σ} {d : Disk} {cwd : String} (hcwd : Path.isAbsolute cwd = true)
  (hfolder : d.isFolder cwd cwd = true)
  (hfiles : ∀ r ∈ n.report.sources, ∃ file octets, r.OnFile d cwd file octets)
include hcwd hfolder hfiles

/-- **Writing one source back** rewrites the file that it was read from. -/
theorem rewrites_writeSource {r : SourceReport} (hr : r ∈ n.report.sources) {d₁ d₂ : Disk}
    (hd : n.Rewrites cwd d d₁) (h : writeSource cwd cwd d₁ r = .ok d₂) : n.Rewrites cwd d d₂ := by
  obtain ⟨file, octets, hfile⟩ := hfiles r hr
  have hpath : r.path = some (Path.relative cwd file cwd) := hfile.path
  unfold writeSource at h
  rw [hpath] at h
  simp only at h
  split at h
  · next hcond =>
    rw [Bool.and_eq_true] at hcond
    intro place before hbefore
    have hwritten := Disk.written_relative hcwd hfolder hfile.read d₁ (Utf8.ofString r.source.text)
    rw [h] at hwritten
    -- Writing fails and leaves the disk, or it puts the octets at one place.
    rcases hwritten.cases with rfl | rfl
    · exact hd place before hbefore
    · rw [Disk.file?_put]
      split
      · next hplace =>
        -- this is the file that was read
        have hthere := Disk.file?_of_read? hfile.read
        rw [← hplace, hbefore] at hthere
        cases hthere
        exact .inr ⟨_, r, file, rfl, hr, hfile, hcond.2, hplace.symm, rfl⟩
      · exact hd place before hbefore
  · cases h
    exact hd

/-- **Writing the corrected sources back** rewrites their files. -/
theorem rewrites_writeSources (hroot : n.config.root = cwd) {d' : Disk}
    (h : n.writeSources cwd d = .ok d') : n.Rewrites cwd d d' := by
  unfold writeSources at h
  rw [hroot] at h
  -- by induction on the sources: each one that is written rewrites its own file
  have hall : Ensures (fun _ => True) (n.Rewrites cwd d)
      (n.report.sources.foldlM (writeSource cwd cwd) d) := by
    refine Ensures.foldlM (fun place before hbefore => .inl hbefore) fun d₁ hd r hr => ?_
    cases hwrite : writeSource cwd cwd d₁ r with
    | error f => exact .error trivial
    | ok d₂ => exact .ok (rewrites_writeSource hcwd hfolder hfiles hr hd hwrite)
  exact hall.good_of_ok h

end Inspection

def Environment.todoPlace (env : Environment) : List String :=
  Path.place (Path.join env.cwd Program.configName)

theorem Environment.written_todo {env : Environment} (hcwd : Path.isAbsolute env.cwd = true)
    (d : Disk) (octets : Bytes) :
    Disk.Written d env.todoPlace octets
      (d.write env.cwd (Path.join env.cwd Program.configName) octets) := by
  have hjoin : Path.join env.cwd (Path.join env.cwd Program.configName)
      = Path.join env.cwd Program.configName :=
    Path.join_of_isAbsolute _ (Path.isAbsolute_join hcwd _)
  have hname : Path.IsName Program.configName := ⟨by decide, by decide, by decide, by decide⟩
  -- the path ends with the name of the file, so that is what is written
  have hlast : (Path.components
      (Path.join env.cwd (Path.join env.cwd Program.configName))).getLast?
      = some Program.configName := by
    obtain ⟨cs, hcs, -⟩ :=
      Path.components_join hcwd (show Path.isAbsolute Program.configName = false by decide)
    rw [hjoin, hcs, Path.components_of_not_mem hname.not_mem, List.getLast?_concat]
  have hwritten := Disk.written_write (d := d) hcwd hlast hname octets
  rwa [hjoin] at hwritten

/-- Writing a to-do list changes the configuration file, and no other. -/
theorem Inspection.file?_writeTodo {n : Inspection σ} {env : Environment}
    (hcwd : Path.isAbsolute env.cwd = true) (hroot : n.config.root = env.cwd) (now : Moment)
    (libs : Libraries) (d : Disk) {place : List String} (hplace : place ≠ env.todoPlace) :
    (n.writeTodo now env.cwd d libs).disk.file? place = d.file? place := by
  unfold writeTodo
  simp only
  split
  · rfl
  · split
    · rfl
    · next d' h =>
      rw [hroot] at h
      have hwritten := env.written_todo hcwd d (Utf8.ofString (Todo.render now n.report libs.documents))
      rw [h] at hwritten
      -- written, or not written for want of a folder
      rcases hwritten.cases with rfl | rfl
      · rfl
      · rw [Disk.file?_put]
        exact if_neg hplace

/-- **How an inspection is concluded**: the files that were corrected are written, and the to-do
list if one is asked for. -/
theorem Inspection.rewrites_conclude {n : Inspection σ} {env : Environment} {d : Disk}
    (hcwd : Path.isAbsolute env.cwd = true) (hfolder : d.isFolder env.cwd env.cwd = true)
    (hroot : n.config.root = env.cwd)
    (hfiles : ∀ r ∈ n.report.sources, ∃ file octets, r.OnFile d env.cwd file octets)
    (i : Invocation) (now : Moment) (libs : Libraries) {place : List String} {before : Bytes}
    (hbefore : d.file? place = some before) (htodo : i.genConfig = true → place ≠ env.todoPlace) :
    (n.conclude i now env.cwd d libs).disk.file? place = some before ∨
      ∃ after r file, (n.conclude i now env.cwd d libs).disk.file? place = some after ∧
        n.Corrects d env.cwd place before after r file := by
  unfold conclude
  split
  · exact .inl hbefore
  · next d' h =>
    have hrewrites : n.Rewrites env.cwd d d' := by
      split at h
      · exact rewrites_writeSources hcwd hfolder hfiles hroot h
      · cases h
        exact fun place before hbefore => .inl hbefore
    -- a to-do list goes to another place, and a report to none
    have hsame : (if i.genConfig = true then n.writeTodo now env.cwd d' libs
        else n.printReport i.failLevel now d' libs).disk.file? place = d'.file? place := by
      split
      · next hgen => exact file?_writeTodo hcwd hroot now libs d' (htodo hgen)
      · unfold printReport
        split <;> rfl
    rw [hsame]
    exact hrewrites place before hbefore

/-! ### Sessions -/

/-- The inspection that a run of the program makes, if it comes to that. -/
def Session.inspection? (catalog : Catalog σ) (parser : Parser σ) (env : Environment)
    (args : List String) (d : Disk) (w : World σ) (libs : Libraries) : Option (Inspection σ) :=
  match Invocation.ofArguments args with
  | .error _ => none
  | .ok i =>
    match i.configure catalog d env libs with
    | .error _ => none
    | .ok c => (i.inspect c parser d env.cwd w).toOption

def Session.asksForTodo (args : List String) : Bool :=
  match Invocation.ofArguments args with
  | .error _ => false
  | .ok i => i.genConfig

namespace Session

/-- **What a session does to a file**: nothing, or it was corrected in the inspection. -/
theorem rewrites_run (parser : Parser σ) {env : Environment} (now : Moment) {args : List String}
    {d : Disk} (w : World σ) (libs : Libraries) (hcwd : Path.isAbsolute env.cwd = true)
    (hfolder : d.isFolder env.cwd env.cwd = true) {place : List String} {before : Bytes}
    (hbefore : d.file? place = some before)
    (htodo : asksForTodo args = true → place ≠ env.todoPlace) :
    (run Catalog.shipped parser env now args d w libs).disk.file? place = some before ∨
      ∃ n after r file, inspection? Catalog.shipped parser env args d w libs = some n ∧
        (run Catalog.shipped parser env now args d w libs).disk.file? place = some after ∧
        n.Corrects d env.cwd place before after r file := by
  unfold run inspection?
  unfold asksForTodo at htodo
  -- A session that ends before its inspection writes nothing.
  cases hi : Invocation.ofArguments args with
  | error stop => exact .inl hbefore
  | ok i =>
    rw [hi] at htodo
    simp only
    unfold runInvocation
    cases hc : i.configure Catalog.shipped d env libs with
    | error e => exact .inl hbefore
    | ok c =>
      simp only
      cases hn : i.inspect c parser d env.cwd w with
      | error e => exact .inl hbefore
      | ok n =>
        obtain ⟨hroot, hfiles⟩ := Invocation.exists_onFile (Invocation.of_configure hc) hn
        rcases n.rewrites_conclude hcwd hfolder hroot hfiles i now libs hbefore htodo with
          hsame | ⟨after, r, file, hafter, hcorrects⟩
        · exact .inl hsame
        · exact .inr ⟨n, after, r, file, rfl, hafter, hcorrects⟩

/-- The substance of a text holds a carriage return exactly if the text does. -/
theorem mem_substance {octets : Bytes} : (0x0D : UInt8) ∈ substance octets ↔ 0x0D ∈ octets := by
  unfold substance
  rw [List.mem_filter]
  exact and_iff_left (by decide)

/-- What a file is read as: its characters, with line feeds for carriage returns. -/
theorem exists_chars_of_textOf {octets : Bytes} {text : String}
    (h : Disk.textOf octets = .ok text) :
    ∃ chars, Utf8.decode octets = .ok chars ∧
      Utf8.ofString text = Utf8.encode (Disk.lineFeeds chars) := by
  obtain ⟨chars, hchars, rfl⟩ := exists_of_map_eq_ok h
  exact ⟨chars, hchars, Utf8.ofString_ofList _⟩

/-- Reading a file keeps its substance exactly if it holds no carriage return. -/
theorem substance_lineFeeds_iff {octets : Bytes} {chars : List Char}
    (h : Utf8.decode octets = .ok chars) :
    substance (Utf8.encode (Disk.lineFeeds chars)) = substance octets ↔ 0x0D ∉ octets := by
  constructor
  · intro heq hmem
    -- a carriage return belongs to the substance, and none is left after reading
    rw [← mem_substance, ← heq, mem_substance] at hmem
    exact Disk.not_mem_encode_lineFeeds chars hmem
  · intro hnot
    have hencode : Utf8.encode chars = octets := Utf8.encode_of_decode h
    rw [← hencode, Disk.mem_encode_iff (by decide)] at hnot
    rw [Disk.lineFeeds_eq_self hnot, hencode]

/-- **What a session does to a file.** Let the working directory be there. With the rules of the
library, whatever the parser and the libraries do and whatever the arguments ask for, a file stays
as it is, octet for octet, or its source was corrected. Then the substance is that of the file as it
was read, with line feeds for carriage returns. So the substance is kept exactly if the file was
left alone or held no carriage return. Only the configuration file is not spoken of if a to-do list
is asked for, which is written there. -/
theorem run_keeps_files (parser : Parser σ) (env : Environment) (now : Moment) (args : List String)
    (d : Disk) (w : World σ) (libs : Libraries) (hcwd : Path.isAbsolute env.cwd = true)
    (hfolder : d.isFolder env.cwd env.cwd = true) (place : List String) (before : Bytes)
    (hbefore : d.file? place = some before)
    (htodo : asksForTodo args = true → place ≠ env.todoPlace) :
    ∃ after, (run Catalog.shipped parser env now args d w libs).disk.file? place = some after ∧
      (after = before ∨
        ∃ n r file chars, inspection? Catalog.shipped parser env args d w libs = some n ∧
          n.Corrects d env.cwd place before after r file ∧ Utf8.decode before = .ok chars ∧
          substance after = substance (Utf8.encode (Disk.lineFeeds chars)) ∧ 0x0D ∉ after) ∧
      (substance after = substance before ↔ after = before ∨ 0x0D ∉ before) := by
  rcases rewrites_run parser now w libs hcwd hfolder hbefore htodo with
    hsame | ⟨n, after, r, file, hn, hafter, hcorrects⟩
  · exact ⟨before, hsame, .inl rfl, fun _ => .inl rfl, fun _ => rfl⟩
  · obtain ⟨chars, hchars, hread⟩ := exists_chars_of_textOf hcorrects.onFile.initial
    have hsubstance : substance after = substance (Utf8.encode (Disk.lineFeeds chars)) := by
      rw [hcorrects.after, hcorrects.onFile.substance, hread]
    have hnot : 0x0D ∉ after := by
      rw [← mem_substance, hsubstance, mem_substance]
      exact Disk.not_mem_encode_lineFeeds chars
    refine ⟨after, hafter, .inr ⟨n, r, file, chars, hn, hcorrects, hchars, hsubstance, hnot⟩, ?_⟩
    rw [hsubstance, substance_lineFeeds_iff hchars]
    constructor
    · exact .inr
    · -- a file that comes back as it was held no carriage return
      rintro (rfl | h)
      · exact hnot
      · exact h

/-- Where the program runs in the two runs below. -/
def workshop : Environment where
  cwd := "/work"
  home := "/home"

/-- A run that corrects the only file of a disk, which has some octets. -/
def correctFile (octets : Bytes) : Session Unit :=
  run Catalog.shipped Scripted.flatParser workshop ⟨⟨2000, 1, 2⟩, 3, 4, 5, 0, none⟩ ["--fix", "a.rb"]
    { files := [(["work", "a.rb"], octets)] } ⟨(), false, []⟩

/-- A trailing blank goes, and the rest of the file stays. -/
theorem correctFile_keeps_substance :
    ∃ after, (correctFile [0x78, 0x20, 0x0A]).disk.file? ["work", "a.rb"] = some after ∧
      after ≠ [0x78, 0x20, 0x0A] ∧ substance after = substance [0x78, 0x20, 0x0A] := by
  have hcwd : Path.isAbsolute workshop.cwd = true := by decide
  have hfolder : Disk.isFolder { files := [(["work", "a.rb"], [0x78, 0x20, 0x0A])] } workshop.cwd
      workshop.cwd = true := by decide +kernel
  have hquiet : asksForTodo ["--fix", "a.rb"] = false := by decide +kernel
  -- the theorem for all runs, at this disk and these arguments
  obtain ⟨after, hafter, -, hkept⟩ := run_keeps_files (Scripted.flatParser : Parser Unit) workshop
    ⟨⟨2000, 1, 2⟩, 3, 4, 5, 0, none⟩ ["--fix", "a.rb"]
    { files := [(["work", "a.rb"], [0x78, 0x20, 0x0A])] } ⟨(), false, []⟩ .builtin hcwd hfolder
    ["work", "a.rb"] [0x78, 0x20, 0x0A] rfl (fun htodo => absurd htodo (by rw [hquiet]; decide))
  have hcorrected : (correctFile [0x78, 0x20, 0x0A]).disk.file? ["work", "a.rb"]
      = some [0x78, 0x0A] := by decide +kernel
  refine ⟨after, hafter, ?_, hkept.mpr (.inr (by decide))⟩
  rintro rfl
  have heq := hafter.symm.trans hcorrected
  exact absurd heq (by decide)

/-- **A carriage return is lost** when the blank before it is removed: of an `x`, a blank, a
carriage return and a line feed, the `x` and the line feed are left. -/
theorem correctFile_loses_carriageReturn :
    (correctFile [0x78, 0x20, 0x0D, 0x0A]).disk.file? ["work", "a.rb"] = some [0x78, 0x0A] ∧
      substance [0x78, 0x0A] ≠ substance [0x78, 0x20, 0x0D, 0x0A] := by
  decide +kernel

end Session

end Lintel
