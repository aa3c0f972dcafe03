import Lintel.Config.Load
import Lintel.Proofs.Config.Sections
import Lintel.Proofs.Disk.Writing
import Lintel.Proofs.Text.Utf8

/-!
# The pages of a to-do list

A to-do list is a file of pages, one for each section. The heading stands above the first one, and so
belongs to its remarks (`Todo.pages`, `Todo.render_eq_file`). All that is written around the blocks of
the sections says nothing to a reader of documents: it is printable, and each line is blank or begins
with the mark of a remark. So any lawful library for documents reads a to-do list back as the data of
its sections (`Todo.readFile_render`).
-/

namespace Lintel

open Documents Documents.Page

variable {d : Documents} {r : Report} {s : Todo.Section} {ss : List Todo.Section}

/-! ### Printable texts -/

namespace Documents.Page

theorem Printable.append {a b : String} (ha : Printable a) (hb : Printable b) :
    Printable (a ++ b) := by
  intro c hc
  rw [String.toList_append] at hc
  exact (List.mem_append.mp hc).elim (ha c) (hb c)

theorem printable_toString (n : Nat) : Printable (toString n) := by
  intro c hc
  -- Decimal digits only, and these stand at 0x30 to 0x39.
  have hdigits : (toString n).toList = Nat.toDigits 10 n := String.toList_ofList
  rw [hdigits] at hc
  have hdigit := Nat.isDigit_of_mem_toDigits (by decide) (by decide) hc
  rw [Char.isDigit, Bool.and_eq_true, decide_eq_true_eq, decide_eq_true_eq] at hdigit
  change 0x30 ≤ c.toNat ∧ c.toNat ≤ 0x39 at hdigit
  omega

theorem printable_twoDigits (n : Nat) : Printable (Data.twoDigits n) := by
  unfold Data.twoDigits
  split
  · exact Printable.append (by decide) (printable_toString n)
  · exact printable_toString n

theorem printable_dayText (d : Day) : Printable (Data.dayText d) := by
  have hzeros : ∀ n, Printable (String.ofList (List.replicate n '0')) := by
    intro n c hc
    rw [String.toList_ofList] at hc
    rw [List.eq_of_mem_replicate hc]
    decide
  have hdash : Printable "-" := by decide
  -- Padding, number and dash in turn, as the day is spelled.
  exact (((((hzeros _).append (printable_toString _)).append hdash).append
    (printable_twoDigits _)).append hdash).append (printable_twoDigits _)

/-- Whether a key is a word, in a form that can be computed. -/
def spellsWord (key : String) : Bool :=
  key.toList.all (fun c => c.isAlpha || c == '/')
    && key.toList.head?.map Char.isAlpha == some true
    && decide (6 ≤ key.length) && decide (key.length ≤ 100)

theorem isWord_of_spellsWord {key : String} (h : spellsWord key = true) : IsWord key := by
  simp only [spellsWord, Bool.and_eq_true, List.all_eq_true, Bool.or_eq_true, beq_iff_eq,
    decide_eq_true_eq] at h
  obtain ⟨⟨⟨hletters, hstart⟩, hlong⟩, hshort⟩ := h
  exact ⟨hletters, hstart, hlong, hshort⟩

theorem IsWord.printable {key : String} (h : IsWord key) : Printable key := by
  intro c hc
  rcases h.letters c hc with hletter | rfl
  · have hrange := toNat_of_isAlpha hletter
    omega
  · decide

theorem isRemark_append {a b : String} (h : a.toList.head? = some '#') (ha : Printable a)
    (hb : Printable b) : IsRemark (a ++ b) := by
  refine ⟨ha.append hb, .inr ?_⟩
  obtain ⟨more, hmore⟩ := List.head?_eq_some_iff.mp h
  rw [String.toList_append, hmore]
  rfl

end Documents.Page

/-! ### Texts without carriage returns -/

namespace Documents

/-- To leave out line feeds at the end brings in no characters. -/
theorem mem_of_mem_withoutFeeds {s : String} {c : Char} (h : c ∈ (withoutFeeds s).toList) :
    c ∈ s.toList := by
  rw [withoutFeeds, String.toList_ofList, List.mem_reverse] at h
  exact List.mem_reverse.mp ((List.dropWhile_subset _) h)

theorem exists_mem_of_mem_intercalate {α : Type} {x : α} {between : List α} {xss : List (List α)}
    (h : x ∈ between.intercalate xss) : x ∈ between ∨ ∃ xs ∈ xss, x ∈ xs := by
  induction xss with
  | nil => cases h
  | cons xs xss ih =>
    -- what stands between comes in only when there is another list
    cases xss with
    | nil =>
      rw [List.intercalate_singleton] at h
      exact .inr ⟨xs, List.mem_cons_self, h⟩
    | cons ys xss =>
      rw [List.intercalate_cons_cons, List.mem_append, List.mem_append] at h
      rcases h with (h | h) | h
      · exact .inr ⟨xs, List.mem_cons_self, h⟩
      · exact .inl h
      · exact (ih h).imp_right fun ⟨zs, hzs, hx⟩ => ⟨zs, List.mem_cons_of_mem _ hzs, hx⟩

/-- **A file has no carriage returns** in it, if its pages are proper. -/
theorem Lawful.file_plain (hd : d.Lawful) {ps : List Page} (h : ∀ p ∈ ps, p.IsProper) :
    '\r' ∉ (d.file ps).toList := by
  have hline : ∀ line ∈ ps.flatMap d.lines, '\r' ∉ line.toList := by
    intro line hline hmem
    obtain ⟨p, hp, hline⟩ := List.mem_flatMap.mp hline
    -- remarks hold printable ASCII only, and the library escapes what it writes
    rcases List.mem_append.mp hline with hremark | hblock
    · have hprintable := ((h p hp).remarks line hremark).printable _ hmem
      exact absurd hprintable (by decide)
    · rw [List.mem_singleton.mp hblock] at hmem
      exact hd.write_plain p (h p hp) (mem_of_mem_withoutFeeds hmem)
  have hfeed : "\n".toList = ['\n'] := by decide
  rw [file, String.toList_append, String.toList_intercalate, hfeed, List.mem_append, not_or]
  refine ⟨fun hmem => ?_, by decide⟩
  rcases exists_mem_of_mem_intercalate hmem with hmem | ⟨cs, hcs, hmem⟩
  · exact absurd hmem (by decide)
  · obtain ⟨line, hmem', rfl⟩ := List.mem_map.mp hcs
    exact hline line hmem' hmem

end Documents

namespace Todo

theorem printable_momentText (t : Moment) : Printable (momentText t) := by
  have hcolon : Printable ":" := by decide
  have hspace : Printable " " := by decide
  exact ((((((printable_dayText _).append hspace).append (printable_twoDigits _)).append
    hcolon).append (printable_twoDigits _)).append hcolon).append (printable_twoDigits _)

theorem isRemark_heading (now : Moment) : ∀ line ∈ heading now, IsRemark line := by
  -- the one line that is not fixed: it holds the moment
  have hsecond : IsRemark
      ("# on " ++ momentText now ++ " UTC using " ++ Program.title ++ ".") := by
    rw [String.append_assoc, String.append_assoc, String.append_assoc]
    exact isRemark_append (by decide) (by decide)
      ((printable_momentText now).append (by decide))
  intro line hline
  simp only [heading, List.mem_cons, List.not_mem_nil, or_false] at hline
  rcases hline with rfl | rfl | rfl | rfl
  · exact ⟨by decide, .inr (by decide)⟩
  · exact hsecond
  · exact ⟨by decide, .inr (by decide)⟩
  · exact ⟨by decide, .inr (by decide)⟩

theorem isRemark_remarks (h : IsWord s.rule) : ∀ line ∈ s.remarks, IsRemark line := by
  -- the rule is named here, whose name is a word
  have hthird : IsRemark
      ("# Run \x60" ++ Program.name ++ " --only " ++ s.rule ++ "\x60 for details") := by
    rw [String.append_assoc]
    exact isRemark_append (by decide) (by decide) (h.printable.append (by decide))
  intro line hline
  simp only [Section.remarks, List.mem_cons, List.not_mem_nil, or_false] at hline
  rcases hline with rfl | rfl | rfl
  · exact ⟨by decide, .inl rfl⟩
  · exact isRemark_append (by decide) (by decide) (printable_toString _)
  · exact hthird

/-! ### Pages -/

def pages (now : Moment) : List Section → List Page
  | [] => []
  | s :: ss => { s.page with remarks := heading now ++ s.remarks } :: ss.map Section.page

/-- A section that can be written: its rule has a name that can be a key, and it lists something. -/
structure Section.IsProper (s : Section) : Prop where
  rule : IsWord s.rule
  paths : s.paths ≠ []

theorem isWord_excluded : IsWord RuleConfig.excludedField.published :=
  isWord_of_spellsWord (by decide)

theorem Section.IsProper.page (h : s.IsProper) : s.page.IsProper :=
  ⟨isRemark_remarks h.rule, h.rule, isWord_excluded, h.paths⟩

theorem isProper_pages (now : Moment) (h : ∀ s ∈ ss, s.IsProper) :
    ∀ p ∈ pages now ss, p.IsProper := by
  cases ss with
  | nil => exact fun p hp => absurd hp List.not_mem_nil
  | cons s ss =>
    rw [List.forall_mem_cons] at h
    -- Only the first page differs: the heading of the file stands above its remarks.
    refine List.forall_mem_cons.mpr ⟨?_, List.forall_mem_map.mpr fun s' hs' => (h.2 s' hs').page⟩
    obtain ⟨hremarks, hkey, hinner, htexts⟩ := h.1.page
    exact ⟨List.forall_mem_append.mpr ⟨isRemark_heading now, hremarks⟩, hkey, hinner, htexts⟩

theorem entries_pages (now : Moment) (ss : List Section) :
    (pages now ss).map Page.entry = ss.map Section.entry := by
  cases ss with
  | nil => rfl
  | cons s ss =>
    rw [pages, List.map_cons, List.map_map]
    rfl

theorem keys_pages (now : Moment) (ss : List Section) :
    (pages now ss).map Page.key = ss.map (·.rule) := by
  cases ss with
  | nil => rfl
  | cons s ss =>
    rw [pages, List.map_cons, List.map_map]
    rfl

/-- **A to-do list is a file of pages**, if there is something to list. -/
theorem render_eq_file (now : Moment) (hne : sections r ≠ []) :
    render now r d = d.file (pages now (sections r)) := by
  unfold render
  obtain ⟨s, ss, hss⟩ := List.exists_cons_of_ne_nil hne
  simp only [hss, List.isEmpty_cons, Bool.false_eq_true, if_false]
  -- Both sides are flattened to the same list of lines, of which the first section is set apart.
  rw [file, pages, List.flatMap_cons, List.flatMap_cons, List.flatMap_map, lines, lines,
    List.append_assoc, List.append_assoc]
  simp only [List.append_assoc]
  rfl

/-! ### Read back -/

/-- **A to-do list is read back** as what it says, if its sections can be written. -/
theorem readFile_render (hd : d.Lawful) (now : Moment) (h : ∀ s ∈ sections r, s.IsProper) :
    Config.readFile d (Utf8.ofString (render now r d)) = .ok (data (sections r)) := by
  by_cases hne : sections r = []
  · -- nothing is written, and nothing is set
    have hempty : render now r d = "" := by
      rw [render, hne]
      rfl
    have htext : Disk.textOf (Utf8.ofString "") = .ok "" := by decide
    rw [hempty, hne, Config.readFile, htext]
    simp only [Config.readText, hd.read_empty]
    rfl
  · have hproper := isProper_pages now h
    have hpages : pages now (sections r) ≠ [] := by
      obtain ⟨s, ss, hss⟩ := List.exists_cons_of_ne_nil hne
      rw [hss]
      exact List.cons_ne_nil _ _
    -- Two pages of one key would be one entry of the mapping.
    have hnodup : ((pages now (sections r)).map Page.key).Nodup := by
      rw [keys_pages]
      exact nodup_rules r
    have hread := hd.read_file _ hpages hproper hnodup
    -- no line end is changed when the file is read
    have htext : Disk.textOf (Utf8.ofString (d.file (pages now (sections r))))
        = .ok (d.file (pages now (sections r))) := by
      rw [Disk.textOf, Utf8.ofString, Utf8.decode_encode]
      change Except.ok (String.ofList (Disk.lineFeeds (d.file _).toList)) = _
      rw [Disk.lineFeeds_eq_self (hd.file_plain hproper), String.ofList_toList]
    -- Something was written, so the data read is not taken for an empty file.
    have hsome : (data (sections r)).isNothing = false := by
      obtain ⟨s, ss, hss⟩ := List.exists_cons_of_ne_nil hne
      rw [hss]
      rfl
    rw [render_eq_file now hne, Config.readFile, htext]
    simp only [Config.readText, hread, entries_pages]
    exact congrArg Except.ok (if_neg (by rw [← data, hsome]; exact Bool.false_ne_true))

end Todo

end Lintel
