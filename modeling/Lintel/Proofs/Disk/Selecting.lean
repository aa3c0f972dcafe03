import Lintel.Disk.Selection
import Lintel.Proofs.Path.Skipped

/-!
# What a selection holds

A selection is written as a list of entries, but what it holds does not depend on the order of the
entries, nor on how often one of them is given. It holds the files that some entry stands for,
without those in directories that are never looked into and without those that an entry with a mark
takes out, wherever that entry stands (`Disk.Selected`).

The files come in order, each once. A list like this is known from its elements
(`eq_of_pairwise_lt`), so entries that stand for the same files make the same list
(`Disk.select_eq_of_same`). That globs can be worked off is asked for; what they stand for depends
on the disk
alone. -/

namespace Lintel

/-! ### Lists that are known from their elements -/

theorem eq_of_pairwise_lt {xs ys : List String} (hxs : xs.Pairwise (· < ·))
    (hys : ys.Pairwise (· < ·)) (h : ∀ x, x ∈ xs ↔ x ∈ ys) : xs = ys := by
  have hperm : xs.Perm ys := (List.perm_ext_iff_of_nodup
    (hxs.imp fun hlt => String.ne_of_lt hlt) (hys.imp fun hlt => String.ne_of_lt hlt)).mpr h
  exact hperm.eq_of_pairwise
    (fun _ _ _ _ hab hba => absurd hba (String.lt_asymm hab)) hxs hys

theorem exists_mapM_eq_ok {ε α β : Type} {f : α → Except ε β} {xs : List α}
    (h : ∀ x ∈ xs, ∃ y, f x = .ok y) :
    ∃ ys, xs.mapM f = .ok ys ∧ ∀ y, y ∈ ys ↔ ∃ x ∈ xs, f x = .ok y := by
  induction xs with
  | nil => exact ⟨[], rfl, fun y => by simp⟩
  | cons x xs ih =>
    obtain ⟨y, hy⟩ := h x List.mem_cons_self
    obtain ⟨ys, hys, hmem⟩ := ih fun x hx => h x (List.mem_cons_of_mem _ hx)
    refine ⟨y :: ys, ?_, fun z => ?_⟩
    · rw [List.mapM_cons, hy, hys]
      rfl
    · -- the first element has this one result
      have hfirst : f x = .ok z ↔ z = y := by
        rw [hy]
        exact ⟨fun heq => (Except.ok.inj heq).symm, fun heq => by rw [heq]⟩
      simp only [List.mem_cons, hmem, exists_eq_or_imp, hfirst]

namespace Disk

/-! ### The files of a selection -/

def StandsFor (d : Disk) (cwd root : String) (extensions : List String) (entry file : String) :
    Prop :=
  ∃ found, d.expand cwd root extensions entry = .ok found ∧ file ∈ found

/-- **What it takes to be selected.** -/
structure Selected (d : Disk) (cwd root : String) (extensions entries : List String)
    (file : String) : Prop where
  /-- Some entry without a mark stands for the file. -/
  found : ∃ e ∈ entries, rejection? e = none ∧ d.StandsFor cwd root extensions e file
  /-- On the way to the file there is no directory that is never looked into. -/
  reached : ∀ c ∈ Path.eitherComponents (Path.relative cwd file root),
    c ∉ Path.skippedDirectories
  spared : ∀ e ∈ entries, ∀ pattern, rejection? e = some pattern →
    Path.matchesAny cwd root (some file) [pattern] = false

variable {d : Disk} {cwd root : String} {extensions entries : List String}

theorem matchesAny_eq_false_iff {file : String} {patterns : List String} :
    Path.matchesAny cwd root (some file) patterns = false ↔
      ∀ p ∈ patterns, Path.matchesAny cwd root (some file) [p] = false := by
  -- the empty path matches nothing, whatever the patterns
  have hone : ∀ patterns, Path.matchesAny cwd root (some file) patterns = false ↔
      file.isEmpty = true ∨
        ∀ p ∈ patterns, Path.patternMatches (Path.forms cwd root file) p = false := by
    intro patterns
    rw [Path.matchesAny, Bool.and_eq_false_iff, Bool.not_eq_false', List.any_eq_false]
    simp only [Bool.not_eq_true]
  simp only [hone, List.mem_singleton, forall_eq]
  cases file.isEmpty <;> simp

/-- **The files of a selection**, if what its entries stand for can be found. -/
theorem exists_select (h : ∀ e ∈ entries, rejection? e = none →
      ∃ found, d.expand cwd root extensions e = .ok found) :
    ∃ files, d.select cwd root extensions entries = .ok files ∧ files.Pairwise (· < ·) ∧
      ∀ f, f ∈ files ↔
        (∃ e ∈ entries, rejection? e = none ∧ d.StandsFor cwd root extensions e f) ∧
          Path.isSkipped (Path.relative cwd f root) = false ∧
          ∀ e ∈ entries, ∀ pattern, rejection? e = some pattern →
            Path.matchesAny cwd root (some f) [pattern] = false := by
  have hkept : ∀ e ∈ entries.filter fun e => (rejection? e).isNone,
      ∃ found, d.expand cwd root extensions e = .ok found := by
    intro e he
    obtain ⟨he, hnone⟩ := List.mem_filter.mp he
    exact h e he (Option.isNone_iff_eq_none.mp hnone)
  obtain ⟨included, hincluded, hmem⟩ := exists_mapM_eq_ok hkept
  refine ⟨_, by rw [select, hincluded]; rfl, (pairwise_sortedSet _).filter _, fun f => ?_⟩
  rw [List.mem_filter, mem_sortedSet, isSelected, Bool.and_eq_true, Bool.not_eq_true',
    Bool.not_eq_true', matchesAny_eq_false_iff]
  refine and_congr ?_ (and_congr_right fun _ => ?_)
  · -- what the entries without a mark stand for
    constructor
    · intro hf
      obtain ⟨found, hfound, hf⟩ := List.mem_flatten.mp hf
      obtain ⟨e, he, hexpand⟩ := (hmem found).mp hfound
      obtain ⟨he, hnone⟩ := List.mem_filter.mp he
      exact ⟨e, he, Option.isNone_iff_eq_none.mp hnone, found, hexpand, hf⟩
    · rintro ⟨e, he, hnone, found, hexpand, hf⟩
      refine List.mem_flatten.mpr ⟨found, (hmem found).mpr ⟨e, ?_, hexpand⟩, hf⟩
      exact List.mem_filter.mpr ⟨he, Option.isNone_iff_eq_none.mpr hnone⟩
  · -- what the entries with a mark take out
    constructor
    · intro hall e he pattern hpattern
      exact hall pattern (List.mem_filterMap.mpr ⟨e, he, hpattern⟩)
    · intro hall pattern hpattern
      obtain ⟨e, he, hpattern⟩ := List.mem_filterMap.mp hpattern
      exact hall e he pattern hpattern

/-- **The order of the entries does not matter**, nor how often one is given. -/
theorem select_eq_of_same {entries' : List String} (hsame : ∀ e, e ∈ entries' ↔ e ∈ entries)
    (h : ∀ e ∈ entries, rejection? e = none →
      ∃ found, d.expand cwd root extensions e = .ok found) :
    d.select cwd root extensions entries' = d.select cwd root extensions entries := by
  obtain ⟨files, hfiles, hsorted, hmem⟩ := exists_select h
  obtain ⟨files', hfiles', hsorted', hmem'⟩ :=
    exists_select fun e he => h e ((hsame e).mp he)
  rw [hfiles, hfiles']
  -- Both lists are strictly sorted, so it is enough that they have the same members.
  refine congrArg Except.ok (eq_of_pairwise_lt hsorted' hsorted fun f => ?_)
  rw [hmem', hmem]
  simp only [hsame]

/-- **A selection is a set, written in order.** If what its entries stand for can be found, then its
files come in strict order, and a file whose path has no line feed is among them exactly if it is
selected: some entry without a mark stands for it, none of the components of its relative path is a
directory that is never looked into, and no entry with a mark matches it. Entries in another order,
or given more than once, select the same. -/
theorem select_as_set (d : Disk) (cwd root : String) (extensions entries : List String)
    (h : ∀ e ∈ entries, rejection? e = none →
      ∃ found, d.expand cwd root extensions e = .ok found) :
    ∃ files, d.select cwd root extensions entries = .ok files ∧ files.Pairwise (· < ·) ∧
      (∀ f, '\n' ∉ (Path.relative cwd f root).toList →
        (f ∈ files ↔ d.Selected cwd root extensions entries f)) ∧
      ∀ entries', (∀ e, e ∈ entries' ↔ e ∈ entries) →
        d.select cwd root extensions entries' = .ok files := by
  obtain ⟨files, hfiles, hsorted, hmem⟩ := exists_select h
  refine ⟨files, hfiles, hsorted, fun f hline => ?_, fun entries' hsame => ?_⟩
  · -- here the name must not have a line feed: an end of text may come before one
    have hreached : Path.isSkipped (Path.relative cwd f root) = false ↔
        ∀ c ∈ Path.eitherComponents (Path.relative cwd f root), c ∉ Path.skippedDirectories := by
      rw [Bool.eq_false_iff, Ne, Path.isSkipped_iff hline]
      simp only [not_exists, not_and]
    rw [hmem, hreached]
    exact ⟨fun ⟨hfound, hreached, hspared⟩ => ⟨hfound, hreached, hspared⟩,
      fun ⟨hfound, hreached, hspared⟩ => ⟨hfound, hreached, hspared⟩⟩
  · rw [select_eq_of_same hsame h, hfiles]

def fourFiles : Disk where
  files := [(["w", "b.rb"], []), (["w", "a.rb"], []), (["w", "lib", "c.rb"], []),
    (["w", "vendor", "d.rb"], [])]

/-- Two globs that overlap, between two marks that take out the same file, and the same entries in
another order and with a repetition. -/
theorem fourFiles_selected :
    fourFiles.select "/w" "/w" [".rb"] ["!lib", "**/*.rb", "a.rb", "!*/c.rb"]
        = .ok ["/w/a.rb", "/w/b.rb"] ∧
      fourFiles.select "/w" "/w" [".rb"] ["a.rb", "!*/c.rb", "a.rb", "**/*.rb", "!lib"]
        = .ok ["/w/a.rb", "/w/b.rb"] ∧
      fourFiles.Selected "/w" "/w" [".rb"] ["!lib", "**/*.rb", "a.rb", "!*/c.rb"] "/w/a.rb" ∧
      ¬ fourFiles.Selected "/w" "/w" [".rb"] ["!lib", "**/*.rb", "a.rb", "!*/c.rb"]
        "/w/vendor/d.rb" := by
  have hselect : fourFiles.select "/w" "/w" [".rb"] ["!lib", "**/*.rb", "a.rb", "!*/c.rb"]
      = .ok ["/w/a.rb", "/w/b.rb"] := by
    have hincluded : ["**/*.rb", "a.rb"].mapM (fourFiles.expand "/w" "/w" [".rb"])
        = .ok [["/w/b.rb", "/w/a.rb", "/w/lib/c.rb", "/w/vendor/d.rb"], ["/w/a.rb"]] := by
      decide +kernel
    -- Sorting is not computed: the result is the only sorted list of these elements.
    have hsorted : sortedSet ["/w/b.rb", "/w/a.rb", "/w/lib/c.rb", "/w/vendor/d.rb", "/w/a.rb"]
        = ["/w/a.rb", "/w/b.rb", "/w/lib/c.rb", "/w/vendor/d.rb"] := by
      refine eq_of_pairwise_lt (pairwise_sortedSet _) (by decide +kernel) fun f => ?_
      rw [mem_sortedSet]
      grind
    have hleft : ["/w/a.rb", "/w/b.rb", "/w/lib/c.rb", "/w/vendor/d.rb"].filter
        (isSelected "/w" "/w" ["lib", "*/c.rb"]) = ["/w/a.rb", "/w/b.rb"] := by
      decide +kernel
    change (["**/*.rb", "a.rb"].mapM (fourFiles.expand "/w" "/w" [".rb"])).map (fun included =>
      (sortedSet included.flatten).filter (isSelected "/w" "/w" ["lib", "*/c.rb"])) = _
    rw [hincluded, ← hleft, ← hsorted]
    rfl
  -- No glob is refused, so that the theorem applies.
  have hfound : ∀ e ∈ ["!lib", "**/*.rb", "a.rb", "!*/c.rb"], rejection? e = none →
      ∃ found, fourFiles.expand "/w" "/w" [".rb"] e = .ok found := by
    have hall : ∀ e ∈ ["!lib", "**/*.rb", "a.rb", "!*/c.rb"],
        (fourFiles.expand "/w" "/w" [".rb"] e).isOk = true := by
      decide +kernel
    intro e he _
    cases hexpand : fourFiles.expand "/w" "/w" [".rb"] e with
    | ok found => exact ⟨found, rfl⟩
    | error f =>
      have hok := hall e he
      rw [hexpand] at hok
      cases hok
  obtain ⟨files, hfiles, -, hmem, hsame⟩ :=
    select_as_set fourFiles "/w" "/w" [".rb"] ["!lib", "**/*.rb", "a.rb", "!*/c.rb"] hfound
  rw [hselect] at hfiles
  cases hfiles
  refine ⟨hselect, hsame _ (by grind), (hmem "/w/a.rb" ?_).mp List.mem_cons_self, ?_⟩
  · decide +kernel
  · rw [← hmem "/w/vendor/d.rb" (by decide +kernel)]
    decide +kernel

end Disk

end Lintel
