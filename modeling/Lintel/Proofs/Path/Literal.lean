import Lintel.Path.Exclusion

/-!
# Paths as patterns

The patterns that leave out paths are often paths themselves: whoever wants a file left out writes
down its path. There is no way to quote a wildcard, so a path that holds one is read as a pattern
like any other text. Stars and question marks do no harm, because they stand for themselves, too,
and neither does an opening bracket that is never closed. A set does harm: it stands for a single
character, and its own text is longer.

`Pattern.covers_self` is the statement about patterns: a text without a set is in its own language.
`Path.IsLiteral.patternMatches` carries it over to paths, where slashes at the end are dropped and
what lies below a directory matches the directory whatever its name is.
-/

namespace Lintel

namespace Pattern

/-- A set begins somewhere in the text: an opening bracket that is closed. -/
def hasSet : List Char → Bool
  | [] => false
  | c :: rest => (c == '[' && (cutSet rest).isSome) || hasSet rest

theorem hasSet_of_cons {c : Char} {cs : List Char} (h : hasSet (c :: cs) = false) :
    hasSet cs = false := by
  rw [hasSet, Bool.or_eq_false_iff] at h
  exact h.2

theorem matchStar_of_tail {tail : List Char → Bool} {cs : List Char} (h : tail cs = true) :
    matchStar tail cs = true := by
  cases cs with
  | nil => exact h
  | cons c cs =>
    rw [matchStar, h]
    rfl

theorem matchesChars_read {cs : List Char} (h : hasSet cs = false) :
    matchesChars (read cs) cs = true := by
  fun_induction read cs with
  | case1 => rfl
  | case2 rest ih =>
    -- the star stands for itself
    rw [matchesChars, matchStar, matchStar_of_tail (ih (hasSet_of_cons h))]
    exact Bool.or_true _
  | case3 rest ih =>
    rw [matchesChars, ih (hasSet_of_cons h)]
    · rfl
    · intro heq
      cases heq
  | case4 rest hcut ih =>
    -- the bracket is not closed, and stands for itself
    rw [matchesChars, ih (hasSet_of_cons h)]
    · rfl
    · intro heq
      cases heq
  | case5 rest inside rest' hcut ih =>
    rw [hasSet, hcut] at h
    cases h
  | case6 c rest hstar hany hset ih =>
    rw [matchesChars, ih (hasSet_of_cons h), accepts, beq_self_eq_true]
    · rfl
    · intro heq
      cases heq

/-- **A text without a set is in its own language.** -/
theorem covers_self {s : String} (h : hasSet s.toList = false) : covers s s = true := by
  rw [covers_eq]
  exact matchesChars_read h

end Pattern

namespace Path

theorem exists_stripSlashes (p : String) :
    ∃ k, p.toList = (stripSlashes p).toList ++ List.replicate k '/' := by
  have hslashes : (p.toList.reverse.takeWhile (· = '/')).reverse
      = List.replicate (p.toList.reverse.takeWhile (· = '/')).length '/' := by
    refine List.eq_replicate_iff.mpr ⟨List.length_reverse, fun c hc => ?_⟩
    have hall : (p.toList.reverse.takeWhile (· = '/')).all (· = '/') = true := List.all_takeWhile
    simpa using List.all_eq_true.mp hall c (List.mem_reverse.mp hc)
  refine ⟨(p.toList.reverse.takeWhile (· = '/')).length, ?_⟩
  -- the slashes at the end are those at the front of the reverse
  calc p.toList = (p.toList.reverse.takeWhile (· = '/')
          ++ p.toList.reverse.dropWhile (· = '/')).reverse := by
        rw [List.takeWhile_append_dropWhile, List.reverse_reverse]
    _ = (p.toList.reverse.dropWhile (· = '/')).reverse
          ++ (p.toList.reverse.takeWhile (· = '/')).reverse := List.reverse_append
    _ = (stripSlashes p).toList
          ++ List.replicate (p.toList.reverse.takeWhile (· = '/')).length '/' := by
        rw [stripSlashes, String.toList_ofList, hslashes]

theorem getLast?_stripSlashes (p : String) : (stripSlashes p).toList.getLast? ≠ some '/' := by
  rw [stripSlashes, String.toList_ofList, List.getLast?_reverse]
  intro hslash
  have hhead := List.head?_dropWhile_not (· = '/') p.toList.reverse
  rw [hslash] at hhead
  exact absurd hhead (by decide)

/-- A path that stands for itself as a pattern: it does not consist of slashes alone, and either
ends with a slash or holds no set. -/
def IsLiteral (p : String) : Prop :=
  stripSlashes p ≠ "" ∧ (p.toList.getLast? = some '/' ∨ Pattern.hasSet p.toList = false)

instance (p : String) : Decidable (IsLiteral p) :=
  inferInstanceAs (Decidable (_ ∧ _))

/-- **A literal path matches itself** as a pattern. -/
theorem IsLiteral.patternMatches {cwd root p : String} (h : IsLiteral p) :
    Path.patternMatches (forms cwd root p) p = true := by
  obtain ⟨hp, h⟩ := h
  have hempty : (stripSlashes p).isEmpty = false := by
    rw [Bool.eq_false_iff, Ne, String.isEmpty_iff]
    exact hp
  -- the path is the first of its forms
  suffices hform : formMatches (stripSlashes p) p = true by
    rw [Path.patternMatches, hempty, forms, List.any_cons, hform]
    rfl
  obtain ⟨k, hk⟩ := exists_stripSlashes p
  rw [formMatches]
  cases k with
  | zero =>
    rw [List.replicate_zero, List.append_nil] at hk
    -- With no slash at its end the path is its own pattern, and it has no set to be read.
    have hset : Pattern.hasSet p.toList = false := by
      rcases h with hlast | hset
      · rw [hk] at hlast
        exact absurd hlast (getLast?_stripSlashes p)
      · exact hset
    rw [← String.toList_inj.mp hk, Pattern.covers_self hset]
    rfl
  | succ k =>
    -- the path lies below the directory that it names
    have hfront : (stripSlashes p ++ "/").toList.isPrefixOf p.toList = true := by
      rw [List.isPrefixOf_iff_prefix, hk, String.toList_append]
      refine ⟨List.replicate k '/', ?_⟩
      rw [List.append_assoc]
      rfl
    rw [hfront, Bool.or_true, Bool.true_or]

end Path

end Lintel
