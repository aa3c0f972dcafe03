import Lintel.Path.Exclusion
import Lintel.Proofs.Text.Split

/-!
# Directories that are never looked into

Whether a path lies in such a directory is found out by a search: a name is looked for at the
beginning of the path and behind each of its separators, and it has to end where a component ends.
This comes to asking the components one by one (`isSkipped_iff`), because none of the names holds a
separator. Both kinds of slash part a path, so a component is what stands between two slashes of any
kind (`eitherComponents`).

A line feed at the very end of a path passes for its end, so the statement is about paths without
line feeds.
-/

namespace Lintel

namespace Path

/-- The parts of some characters between slashes of either kind. -/
def eitherParts (cs : List Char) : List (List Char) :=
  splitOnChar '/' (cs.map fun c => if isSeparator c then '/' else c)

/-- The components of a path that may use either slash. -/
def eitherComponents (p : String) : List String :=
  (eitherParts p.toList).map String.ofList

def firstPart (cs : List Char) : List Char :=
  cs.takeWhile fun c => !isSeparator c

variable {c : Char} {cs : List Char}

/-! ### Components, one by one -/

theorem eitherParts_of_separator (h : isSeparator c = true) :
    eitherParts (c :: cs) = [] :: eitherParts cs := by
  rw [eitherParts, List.map_cons, if_pos h, splitOnChar, if_pos rfl, eitherParts]

/-- A character that is no separator goes with the first part of those behind it. -/
theorem eitherParts_of_not_separator (h : isSeparator c = false) {part : List Char}
    {parts : List (List Char)} (hparts : eitherParts cs = part :: parts) :
    eitherParts (c :: cs) = (c :: part) :: parts := by
  -- The character is no slash, so it joins the part that is open.
  have hslash : c ≠ '/' := by
    rintro rfl
    cases h
  have hkeep : (if isSeparator c then '/' else c) = c := by rw [h]; rfl
  rw [eitherParts, List.map_cons, hkeep, splitOnChar, if_neg hslash]
  unfold eitherParts at hparts
  rw [hparts]

theorem exists_eitherParts (cs : List Char) :
    ∃ parts, eitherParts cs = firstPart cs :: parts := by
  induction cs with
  | nil => exact ⟨[], rfl⟩
  | cons c cs ih =>
    obtain ⟨parts, hparts⟩ := ih
    cases hc : isSeparator c with
    -- a separator: the first part is empty
    | true =>
      refine ⟨eitherParts cs, ?_⟩
      rw [eitherParts_of_separator hc, firstPart, List.takeWhile_cons_of_neg (by simp [hc])]
    | false =>
      refine ⟨parts, ?_⟩
      rw [eitherParts_of_not_separator hc hparts, firstPart, firstPart,
        List.takeWhile_cons_of_pos (by simp [hc])]

theorem firstPart_rest (cs : List Char) :
    firstPart (cs.dropWhile fun c => !isSeparator c) = [] := by
  have hhead := List.head?_dropWhile_not (fun c => !isSeparator c) cs
  cases hrest : cs.dropWhile fun c => !isSeparator c with
  | nil => rfl
  | cons c rest =>
    rw [hrest] at hhead
    exact List.takeWhile_cons_of_neg (by simpa using hhead)

/-! ### Names at the beginning -/

theorem not_isSeparator_of_skipped {d : String} (hd : d ∈ skippedDirectories) :
    ∀ c ∈ d.toList, isSeparator c = false := by
  have hall : (skippedDirectories.all fun d => d.toList.all fun c => !isSeparator c) = true := by
    decide +kernel
  intro c hc
  have hplain := List.all_eq_true.mp (List.all_eq_true.mp hall d hd) c hc
  rwa [Bool.not_eq_true'] at hplain

theorem endsName_iff (h : '\n' ∉ cs) : endsName cs = true ↔ firstPart cs = [] := by
  cases cs with
  | nil => exact iff_of_true rfl rfl
  | cons c cs =>
    have hends : endsName (c :: cs) = isSeparator c := by
      unfold endsName
      split
      · next heq => cases heq
      · next heq =>
        -- the last line feed is not there to be passed over
        cases heq
        exact absurd List.mem_cons_self h
      · next heq =>
        cases heq
        rfl
    rw [hends, firstPart, List.takeWhile_cons]
    cases isSeparator c <;> simp

/-- **A name at the beginning** is the first component. -/
theorem startsSkipped_iff (h : '\n' ∉ cs) :
    startsSkipped cs = true ↔ String.ofList (firstPart cs) ∈ skippedDirectories := by
  rw [startsSkipped, List.any_eq_true]
  constructor
  · rintro ⟨d, hd, hfront⟩
    rw [Bool.and_eq_true, List.isPrefixOf_iff_prefix] at hfront
    obtain ⟨⟨rest, rfl⟩, hends⟩ := hfront
    rw [← String.length_toList, List.drop_left,
      endsName_iff fun hmem => h (List.mem_append_right _ hmem)] at hends
    -- A name that is skipped holds no separator, so that it is passed as a whole.
    have hfirst : firstPart (d.toList ++ rest) = d.toList := by
      rw [firstPart, List.takeWhile_append_of_pos fun c hc => by
        rw [not_isSeparator_of_skipped hd c hc]; rfl]
      change d.toList ++ firstPart rest = d.toList
      rw [hends, List.append_nil]
    rw [hfirst, String.ofList_toList]
    exact hd
  · intro hmem
    -- The first component itself is the name that is found.
    have hsplit : firstPart cs ++ cs.dropWhile (fun c => !isSeparator c) = cs :=
      List.takeWhile_append_dropWhile
    refine ⟨_, hmem, ?_⟩
    rw [Bool.and_eq_true, List.isPrefixOf_iff_prefix, ← String.length_toList,
      String.toList_ofList]
    refine ⟨⟨_, hsplit⟩, ?_⟩
    have hdrop : cs.drop (firstPart cs).length = cs.dropWhile fun c => !isSeparator c :=
      (congrArg (List.drop (firstPart cs).length) hsplit.symm).trans List.drop_left
    rw [hdrop, endsName_iff fun hmem => h ((List.dropWhile_suffix _).subset hmem)]
    exact firstPart_rest cs

/-- **A name behind a separator** is one of the components after the first. -/
theorem skipsBehind_iff (h : '\n' ∉ cs) {part : List Char} {parts : List (List Char)}
    (hparts : eitherParts cs = part :: parts) :
    skipsBehind cs = true ↔ ∃ q ∈ parts, String.ofList q ∈ skippedDirectories := by
  induction cs generalizing part parts with
  | nil =>
    cases hparts
    exact iff_of_false Bool.false_ne_true fun ⟨_, hq, _⟩ => List.not_mem_nil hq
  | cons c cs ih =>
    rw [List.mem_cons, not_or] at h
    obtain ⟨rest, hrest⟩ := exists_eitherParts cs
    rw [skipsBehind, Bool.or_eq_true, Bool.and_eq_true, ih h.2 hrest, startsSkipped_iff h.2]
    -- A separator begins another component; a character belongs to the first one, which is not
    -- asked about.
    cases hc : isSeparator c with
    | true =>
      rw [eitherParts_of_separator hc, hrest] at hparts
      cases hparts
      simp
    | false =>
      rw [eitherParts_of_not_separator hc hrest] at hparts
      cases hparts
      simp

/-- **The search finds components**: a path without line feeds lies in a directory that is never
looked into if and only if one of its components is the name of one. -/
theorem isSkipped_iff {p : String} (h : '\n' ∉ p.toList) :
    isSkipped p = true ↔ ∃ c ∈ eitherComponents p, c ∈ skippedDirectories := by
  obtain ⟨parts, hparts⟩ := exists_eitherParts p.toList
  have hcomponents : eitherComponents p = (firstPart p.toList :: parts).map String.ofList :=
    congrArg (List.map String.ofList) hparts
  rw [isSkipped, Bool.or_eq_true, startsSkipped_iff h, skipsBehind_iff h hparts, hcomponents]
  simp

end Path

end Lintel
