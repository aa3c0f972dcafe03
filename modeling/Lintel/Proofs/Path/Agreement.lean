import Lintel.Config.Load
import Lintel.Proofs.Path.Below
import Lintel.Rules

/-!
# Two spellings of a file

Patterns that leave out files are asked twice. When files are selected, a file is known by the
absolute path that a glob gave; when rules are asked, its source is known by the relative path from
the root of the configuration. Where the root is the working directory, both paths lead to the same
place, and a pattern finds the same texts to match.

A pattern is matched against three forms of a path: the path itself, its absolute form, and its
relative form. `absolute_join_relative` says that the way to a file, followed from the directory,
ends at the file again, also if it goes up first. So the forms of either spelling are the two
spellings (`mem_forms_absolute`, `mem_forms_relative`).

Two slashes in front of a path are kept when it is normalised, and a path that is followed from a
directory keeps those of the directory. The spellings agree for a file that has as many of them as
the directory. A system reports its working directory with a single one.
-/

namespace Lintel

theorem Config.path_of_source? {disk : Disk} {cwd root file : String} {s : Source}
    (h : source? disk cwd root file = some s) :
    s.path = some (Path.relative cwd file root) := by
  unfold source? at h
  split at h
  · cases h
  · split at h
    · cases h
      rfl
    · cases h

namespace Path

/-! ### Slashes in front -/

/-- What is put behind an absolute path does not change the slashes in front of it, unless it begins
with another slash. -/
theorem leadingSlashes_append_of_head {p q : String} (hp : isAbsolute p = true)
    (hq : isAbsolute q = false) : leadingSlashes (p ++ q) = leadingSlashes p := by
  obtain ⟨cs, hcs⟩ := exists_of_isAbsolute hp
  have hhead : ∀ ds, q.toList ≠ '/' :: ds := by
    intro ds hds
    rw [isAbsolute, hds] at hq
    cases hq
  unfold leadingSlashes
  rw [String.toList_append, hcs]
  rcases cs with _ | ⟨b, _ | ⟨c, cs⟩⟩
  · -- one slash, and no other follows
    cases hchars : q.toList with
    | nil => rfl
    | cons d ds =>
      have hd : d ≠ '/' := fun heq => hhead ds (by rw [hchars, heq])
      simp [hd]
  · -- two characters, of which the second may be a slash
    cases hchars : q.toList with
    | nil => rfl
    | cons d ds =>
      have hd : d ≠ '/' := fun heq => hhead ds (by rw [hchars, heq])
      by_cases hb : b = '/' <;> simp [hb, hd]
  · by_cases hb : b = '/' <;> by_cases hc : c = '/' <;> simp [hb, hc]

/-- A path that is followed from a directory keeps the slashes in front of the directory. -/
theorem leadingSlashes_join {a b : String} (ha : isAbsolute a = true)
    (hb : isAbsolute b = false) : leadingSlashes (join a b) = leadingSlashes a := by
  unfold join
  rw [hb, if_neg Bool.false_ne_true, isEmpty_of_isAbsolute ha, Bool.false_or]
  split
  · exact leadingSlashes_append_of_head ha hb
  · next hlast =>
    -- a slash is put in between, behind something that is not a slash
    have hslash : a.toList.all (· = '/') = false := by
      obtain ⟨cs, hcs⟩ := exists_of_isAbsolute ha
      rw [Bool.eq_false_iff]
      intro hall
      refine hlast (beq_iff_eq.mpr ?_)
      rw [hcs] at hall ⊢
      have hmem := List.all_eq_true.mp hall _ (List.getLast_mem (List.cons_ne_nil '/' cs))
      rw [List.getLast?_eq_getLast_of_ne_nil (List.cons_ne_nil '/' cs)]
      exact congrArg some (of_decide_eq_true hmem)
    rw [String.append_assoc]
    exact leadingSlashes_append hslash _

/-! ### There and back -/

/-- The forms of the absolute path of a file are the two spellings of the file. -/
theorem mem_forms_absolute {root f g : String} (hf : isAbsolute f = true)
    (hnormal : normalize f = f) :
    g ∈ forms root root f ↔ g = f ∨ g = relative root f root := by
  have hfull : absolute root (join root f) = f := by
    rw [join_of_isAbsolute root hf, absolute_of_isAbsolute root hf, hnormal]
  rw [mem_forms, hfull, or_self_left]

section Relative

variable {root : String} (hroot : isAbsolute root = true)
include hroot

/-- The relative path to a file is not empty: where it leads nowhere, it is a point. -/
theorem isEmpty_relative (p : String) : (relative root p root).isEmpty = false := by
  rw [Bool.eq_false_iff]
  intro hempty
  have hcomponents : components (relative root p root) = [""] := by
    rw [String.isEmpty_iff.mp hempty]
    decide
  rcases components_relative hroot p with hway | ⟨-, hhere⟩
  · -- every step of the way has a name
    have hmem : "" ∈ between (place root) (place (join root p)) := by
      rw [← hway, hcomponents]
      exact List.mem_singleton.mpr rfl
    rcases mem_between hmem with hup | hname
    · exact absurd hup (by decide)
    · exact (isName_place _ _ hname).ne_empty rfl
  · rw [hcomponents] at hhere
    exact absurd hhere (by decide)

variable {f : String} (hf : isAbsolute f = true) (hnormal : normalize f = f)
  (hslashes : leadingSlashes f = leadingSlashes root)
include hf hnormal hslashes

/-- **The way to a file leads to the file**: seen from the directory, the relative path has the
absolute form from which it was made. -/
theorem absolute_join_relative : absolute root (join root (relative root f root)) = f := by
  have hrelative := isAbsolute_relative hroot f
  have hjoin := isAbsolute_join hroot (relative root f root)
  -- joining and taking the relative path undo each other on the place
  have hplace : place (join root (relative root f root)) = place f := by
    rw [place_join_relative hroot, join_of_isAbsolute root hf]
  calc absolute root (join root (relative root f root))
    _ = normalize (join root (relative root f root)) := absolute_of_isAbsolute root hjoin
    _ = String.ofList (List.replicate (leadingSlashes root) '/') ++ ofComponents (place f) := by
      rw [normalize_of_isAbsolute hjoin, leadingSlashes_join hroot hrelative, hplace]
    _ = normalize f := by rw [normalize_of_isAbsolute hf, hslashes]
    _ = f := hnormal

/-- The forms of the relative path of a file are the two spellings of the file. -/
theorem mem_forms_relative {g : String} :
    g ∈ forms root root (relative root f root) ↔ g = f ∨ g = relative root f root := by
  rw [mem_forms, absolute_join_relative hroot hf hnormal hslashes, or_left_comm, or_self]

end Relative

theorem patternMatches_congr {forms forms' : List String} (h : ∀ g, g ∈ forms ↔ g ∈ forms')
    (pattern : String) : patternMatches forms pattern = patternMatches forms' pattern := by
  have hany : forms.any (formMatches (stripSlashes pattern))
      = forms'.any (formMatches (stripSlashes pattern)) := by
    rw [Bool.eq_iff_iff, List.any_eq_true, List.any_eq_true]
    simp only [h]
  rw [patternMatches, patternMatches, hany]

/-- **The two questions have one answer.** The root of the configuration is the working directory,
and a file is given by its absolute path, with as many slashes in front as the root. Whatever the
patterns are, they match the file as it is selected, by this path, if and only if they match its
source, by the relative path. So a rule that may be excluded is not applied to the source of a file
exactly if the same patterns would have left out the file. -/
theorem matchesAny_relative {root f : String} (hroot : isAbsolute root = true)
    (hf : isAbsolute f = true) (hnormal : normalize f = f)
    (hslashes : leadingSlashes f = leadingSlashes root) :
    (∀ patterns, matchesAny root root (some f) patterns
      = matchesAny root root (some (relative root f root)) patterns) ∧
    ∀ {σ : Type} (r : Rule σ) (disk : Disk) (s : Source), r.kind.obligatory = false →
      Config.source? disk root root f = some s →
        r.excludes root s.path = matchesAny root root (some f) r.excluded := by
  have hagree : ∀ patterns, matchesAny root root (some f) patterns
      = matchesAny root root (some (relative root f root)) patterns := by
    intro patterns
    -- both paths have the same three forms, two of them in the other order
    have hforms : ∀ g, g ∈ forms root root f ↔ g ∈ forms root root (relative root f root) :=
      fun g => (mem_forms_absolute hf hnormal).trans
        (mem_forms_relative hroot hf hnormal hslashes).symm
    have hpatterns : patternMatches (forms root root f)
        = patternMatches (forms root root (relative root f root)) :=
      funext (patternMatches_congr hforms)
    simp only [matchesAny, isEmpty_of_isAbsolute hf, isEmpty_relative hroot f, hpatterns]
  refine ⟨hagree, fun r disk s hobligatory hsource => ?_⟩
  rw [Rule.excludes, hobligatory, Bool.not_false, Bool.true_and, hagree,
    Config.path_of_source? hsource]

/-- A disk with a single file, which is empty. -/
def besideDisk : Disk where
  files := [(["w", "[b]", "x.rb"], [])]

/-- A rule that is not applied to what lies in a directory beside the working directory. -/
def sparing : Rule Unit :=
  ⟨Rules.trailingWhitespace, { excluded := some ["../[[]b]//"] }⟩

/-- A file beside the working directory, in a directory whose name is no literal pattern: a pattern
that goes up finds it by its absolute path, one that starts at the root by its relative path, and a
rule is not applied to its source. -/
theorem beside_matched :
    relative "/w/app" "/w/[b]/x.rb" "/w/app" = "../[b]/x.rb" ∧
      matchesAny "/w/app" "/w/app" (some "/w/[b]/x.rb") ["../[[]b]//"] = true ∧
      matchesAny "/w/app" "/w/app" (some "../[b]/x.rb") ["/w/?b]"] = true ∧
      ∃ s, Config.source? besideDisk "/w/app" "/w/app" "/w/[b]/x.rb" = some s ∧
        sparing.excludes "/w/app" s.path = true := by
  have hup : relative "/w/app" "/w/[b]/x.rb" "/w/app" = "../[b]/x.rb" := by decide +kernel
  have hroot : isAbsolute "/w/app" = true := by decide
  have hf : isAbsolute "/w/[b]/x.rb" = true := by decide
  have hnormal : normalize "/w/[b]/x.rb" = "/w/[b]/x.rb" := by decide +kernel
  have hmatch : matchesAny "/w/app" "/w/app" (some "/w/[b]/x.rb") ["../[[]b]//"] = true := by
    decide +kernel
  have hread : (Config.source? besideDisk "/w/app" "/w/app" "/w/[b]/x.rb").isSome = true := by
    decide +kernel
  obtain ⟨s, hsource⟩ := Option.isSome_iff_exists.mp hread
  -- One match is computed; the others are the same by the theorem.
  obtain ⟨hagree, hrules⟩ := matchesAny_relative hroot hf hnormal (by decide)
  rw [hup] at hagree
  refine ⟨hup, hmatch, ?_, s, hsource, ?_⟩
  · rw [← hagree]
    decide +kernel
  · rw [hrules sparing besideDisk s rfl hsource]
    exact hmatch

end Path

end Lintel
