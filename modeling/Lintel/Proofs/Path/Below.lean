import Lintel.Proofs.Path.Literal
import Lintel.Proofs.Path.Normal

/-!
# What lies below a directory

A pattern that leaves out a directory leaves out everything below it. There are three ways in which
it may do so, and three forms of the path that it may be written against, and each of them carries
over to what lies below.

The statement about patterns is `Pattern.covers_slash_iff`: with `/*` put behind it a pattern
matches what lies below the texts of its language, whatever wildcards it holds. An opening bracket
that is not closed stays open, because nothing that is put behind closes it (`Pattern.read_append`).
It follows when a pattern matches a form of a path: the form or a directory above it is in the
language, or a directory above it is spelled like the pattern (`Path.formMatches_iff`).

The statement about paths is `Path.forms_below`: the forms of a path below a directory are the forms
of the directory with the rest of the path put behind.
-/

namespace Lintel

namespace Pattern

/-! ### Reading a pattern that goes on -/

variable {cs inside rest more : List Char}

theorem cutBracket_append (h : cutBracket cs = some (inside, rest)) (more : List Char) :
    cutBracket (cs ++ more) = some (inside, rest ++ more) := by
  induction cs generalizing inside with
  | nil => cases h
  | cons c cs ih =>
    rw [List.cons_append]
    unfold cutBracket at h ⊢
    split at h
    · -- the bracket is found in the first part, so what is added comes behind it
      next hc =>
      cases h
      rw [if_pos hc]
    · next hc =>
      obtain ⟨⟨inside', rest'⟩, hcut, heq⟩ := Option.map_eq_some_iff.mp h
      cases heq
      rw [if_neg hc, ih hcut]
      rfl

theorem cutBracket_eq_none_iff : cutBracket cs = none ↔ ']' ∉ cs := by
  induction cs with
  | nil => exact ⟨fun _ => List.not_mem_nil, fun _ => rfl⟩
  | cons c cs ih =>
    unfold cutBracket
    split
    · next hc => simp [hc]
    · next hc => simp [ih, Ne.symm hc]

theorem cutSet_of_not_mem (h : ']' ∉ cs) : cutSet cs = none := by
  unfold cutSet
  split
  · simp at h
  · next tail _ => rw [cutBracket_eq_none_iff.mpr (by simp_all)]; rfl
  · simp at h
  · exact cutBracket_eq_none_iff.mpr h

theorem cutSet_append (h : cutSet cs = some (inside, rest)) (more : List Char) :
    cutSet (cs ++ more) = some (inside, rest ++ more) := by
  unfold cutSet at h
  split at h
  · next tail =>
    obtain ⟨⟨a, b⟩, hcut, heq⟩ := Option.map_eq_some_iff.mp h
    cases heq
    simp [cutSet, cutBracket_append hcut more]
  · next tail hne =>
    obtain ⟨⟨a, b⟩, hcut, heq⟩ := Option.map_eq_some_iff.mp h
    cases heq
    have hcut' := cutBracket_append hcut more
    -- what follows the mark does not start with a closing bracket
    rw [List.cons_append, cutSet, hcut']
    · rfl
    · intro tail' heq
      cases tail with
      | nil => cases hcut
      | cons c tail =>
        cases heq
        exact hne tail rfl
  · next tail =>
    obtain ⟨⟨a, b⟩, hcut, heq⟩ := Option.map_eq_some_iff.mp h
    cases heq
    simp [cutSet, cutBracket_append hcut more]
  · next hboth hmark hclose =>
    -- Without a mark the set is cut as it stands.
    have hcut := cutBracket_append h more
    cases cs with
    | nil => cases h
    | cons c cs =>
      rw [cutSet, hcut]
      · intro tail heq
        injection heq with hc
        exact hmark cs (by rw [hc])
      · intro tail heq
        injection heq with hc
        exact hmark cs (by rw [hc])
      · intro tail heq
        injection heq with hc
        exact hclose cs (by rw [hc])

theorem cutSet_append_of_none (h : cutSet cs = none) (hmore : ']' ∉ more) :
    cutSet (cs ++ more) = none := by
  unfold cutSet at h
  split at h
  · -- three ways in which a set begins with a bracket that belongs to it, and all others
    rw [Option.map_eq_none_iff, cutBracket_eq_none_iff] at h
    simp [cutSet, cutBracket_eq_none_iff, h, hmore]
  · rw [Option.map_eq_none_iff, cutBracket_eq_none_iff] at h
    exact cutSet_of_not_mem (by simp [h, hmore])
  · rw [Option.map_eq_none_iff, cutBracket_eq_none_iff] at h
    simp [cutSet, cutBracket_eq_none_iff, h, hmore]
  · rw [cutBracket_eq_none_iff] at h
    exact cutSet_of_not_mem (by simp [h, hmore])

/-- **A pattern is read from the left**: what is put behind it is read on its own, unless it closes
a bracket. -/
theorem read_append (cs : List Char) (hmore : ']' ∉ more) :
    read (cs ++ more) = read cs ++ read more := by
  fun_induction read cs with
  | case1 => rfl
  | case2 rest ih => rw [List.cons_append, read, ih]; rfl
  | case3 rest ih => rw [List.cons_append, read, ih]; rfl
  | case4 rest hcut ih =>
    -- the bracket stands for itself, and goes on doing so
    have hcut' := cutSet_append_of_none hcut hmore
    rw [List.cons_append, read]
    split
    · rw [ih]; rfl
    · next hsome =>
      rw [hcut'] at hsome
      cases hsome
  | case5 rest inside rest' hcut ih =>
    have hcut' := cutSet_append hcut more
    rw [List.cons_append, read]
    split
    · next hnone =>
      rw [hcut'] at hnone
      cases hnone
    · next hsome =>
      rw [hcut'] at hsome
      cases hsome
      rw [ih]; rfl
  | case6 c rest hstar hany hset ih =>
    rw [List.cons_append, read, ih]
    · rfl
    all_goals assumption

/-! ### The language of a pattern that goes on -/

theorem matchStar_iff {tail : List Char → Bool} :
    matchStar tail cs = true ↔ ∃ before after, cs = before ++ after ∧ tail after = true := by
  induction cs with
  | nil =>
    constructor
    · exact fun h => ⟨[], [], rfl, h⟩
    · rintro ⟨before, after, heq, h⟩
      obtain ⟨-, rfl⟩ := List.append_eq_nil_iff.mp heq.symm
      exact h
  | cons c cs ih =>
    rw [matchStar, Bool.or_eq_true, ih]
    constructor
    · -- the star stands for nothing, or for one character more
      rintro (h | ⟨before, after, rfl, h⟩)
      · exact ⟨[], c :: cs, rfl, h⟩
      · exact ⟨c :: before, after, rfl, h⟩
    · rintro ⟨before, after, heq, h⟩
      cases before with
      | nil =>
        left
        rw [heq]
        exact h
      | cons b before =>
        cases heq
        exact .inr ⟨before, after, rfl, h⟩

theorem matchesChars_cons_iff {part : PatternPart} (h : part ≠ .star) {p : Pattern} :
    matchesChars (part :: p) cs = true ↔
      ∃ c ds, cs = c :: ds ∧ accepts part c = true ∧ matchesChars p ds = true := by
  cases part with
  | star => exact absurd rfl h
  | _ => cases cs <;> simp [matchesChars]

/-- **A text matches two patterns in a row** if it has a part for each of them. -/
theorem matchesChars_append_iff {p q : Pattern} : matchesChars (p ++ q) cs = true ↔
    ∃ ds es, cs = ds ++ es ∧ matchesChars p ds = true ∧ matchesChars q es = true := by
  induction p generalizing cs with
  | nil => simp [matchesChars]
  | cons part p ih =>
    rw [List.cons_append]
    -- A star takes some characters away and leaves the rest to the pattern behind it, any other
    -- part takes one.
    by_cases hstar : part = .star
    · subst hstar
      rw [matchesChars, matchStar_iff]
      constructor
      · rintro ⟨before, after, rfl, h⟩
        obtain ⟨ds, es, rfl, hp, hq⟩ := ih.mp h
        refine ⟨before ++ ds, es, (List.append_assoc ..).symm, ?_, hq⟩
        rw [matchesChars, matchStar_iff]
        exact ⟨before, ds, rfl, hp⟩
      · rintro ⟨ds, es, rfl, hp, hq⟩
        rw [matchesChars, matchStar_iff] at hp
        obtain ⟨before, after, rfl, hp⟩ := hp
        exact ⟨before, after ++ es, List.append_assoc .., ih.mpr ⟨after, es, rfl, hp, hq⟩⟩
    · rw [matchesChars_cons_iff hstar]
      constructor
      · rintro ⟨c, cs', rfl, hc, h⟩
        obtain ⟨ds, es, rfl, hp, hq⟩ := ih.mp h
        exact ⟨c :: ds, es, rfl, (matchesChars_cons_iff hstar).mpr ⟨c, ds, rfl, hc, hp⟩, hq⟩
      · rintro ⟨ds, es, rfl, hp, hq⟩
        obtain ⟨c, ds', rfl, hc, hp⟩ := (matchesChars_cons_iff hstar).mp hp
        exact ⟨c, ds' ++ es, rfl, hc, ih.mpr ⟨ds', es, rfl, hp, hq⟩⟩

theorem ofString_append_slash (p : String) :
    ofString (p ++ "/*") = ofString p ++ [.char '/', .star] := by
  have hread : read ['/', '*'] = [.char '/', .star] := by
    simp [read]
  have hclosed : ']' ∉ ['/', '*'] := by decide
  rw [ofString, String.toList_append, ofString, ← hread]
  exact read_append p.toList hclosed

/-- **What lies below the directories of a pattern**: a text of its language, a slash, and whatever
comes behind. -/
theorem covers_slash_iff {p f : String} :
    covers (p ++ "/*") f = true ↔ ∃ g more, covers p g = true ∧ f = g ++ "/" ++ more := by
  -- The end of the pattern matches whatever starts with a slash.
  have hslash : ∀ es, matchesChars [.char '/', .star] es = true ↔ ∃ more, es = '/' :: more := by
    intro es
    rw [matchesChars_cons_iff (by simp)]
    constructor
    · rintro ⟨c, ds, rfl, hc, -⟩
      exact ⟨ds, by rw [beq_iff_eq.mp hc]⟩
    · rintro ⟨more, rfl⟩
      refine ⟨'/', more, rfl, rfl, ?_⟩
      rw [matchesChars, matchStar_iff]
      exact ⟨more, [], (List.append_nil more).symm, rfl⟩
  rw [covers_eq, ofString_append_slash, matchesChars_append_iff]
  constructor
  · rintro ⟨ds, es, hf, hp, hq⟩
    obtain ⟨more, rfl⟩ := (hslash es).mp hq
    refine ⟨String.ofList ds, String.ofList more, ?_, ?_⟩
    · rw [covers_eq, String.toList_ofList]
      exact hp
    · refine String.toList_inj.mp ?_
      simp [hf]
  · rintro ⟨g, more, hg, rfl⟩
    rw [covers_eq] at hg
    exact ⟨g.toList, '/' :: more.toList, by simp, hg, (hslash _).mpr ⟨_, rfl⟩⟩

end Pattern

namespace Path

/-! ### When a form matches -/

theorem isPrefixOf_toList_iff {a f : String} :
    a.toList.isPrefixOf f.toList = true ↔ ∃ more, f = a ++ more := by
  rw [List.isPrefixOf_iff_prefix]
  constructor
  · rintro ⟨more, hmore⟩
    -- The rest of the characters is spelled as a string again.
    refine ⟨String.ofList more, String.toList_inj.mp ?_⟩
    rw [String.toList_append, String.toList_ofList, hmore]
  · rintro ⟨more, rfl⟩
    rw [String.toList_append]
    exact List.prefix_append _ _

/-- **When a pattern matches a form of a path**: the form is in its language, or a directory above
it is, or is spelled like the pattern. -/
theorem formMatches_iff {pattern form : String} : formMatches pattern form = true ↔
    Pattern.covers pattern form = true ∨
      ∃ g more, (g = pattern ∨ Pattern.covers pattern g = true) ∧ form = g ++ "/" ++ more := by
  rw [formMatches, Bool.or_eq_true, Bool.or_eq_true, isPrefixOf_toList_iff, Pattern.covers_slash_iff,
    or_assoc]
  -- the two ways below a directory: spelled like the pattern, or in its language
  refine or_congr_right ?_
  constructor
  · rintro (⟨more, hform⟩ | ⟨g, more, hg, hform⟩)
    · exact ⟨pattern, more, .inl rfl, hform⟩
    · exact ⟨g, more, .inr hg, hform⟩
  · rintro ⟨g, more, rfl | hg, hform⟩
    · exact .inl ⟨more, hform⟩
    · exact .inr ⟨g, more, hg, hform⟩

theorem formMatches_below {pattern form : String} (h : formMatches pattern form = true)
    (r : String) : formMatches pattern (form ++ "/" ++ r) = true := by
  rw [formMatches_iff] at h ⊢
  right
  rcases h with h | ⟨g, more, hg, rfl⟩
  · exact ⟨form, r, .inr h, rfl⟩
  · refine ⟨g, more ++ "/" ++ r, hg, ?_⟩
    simp only [String.append_assoc]

/-! ### Forms of what lies below a directory -/

theorem leadingSlashes_append {p : String} (h : p.toList.all (· = '/') = false) (q : String) :
    leadingSlashes (p ++ q) = leadingSlashes p := by
  unfold leadingSlashes
  rw [String.toList_append]
  -- three characters decide, and one of them is no slash or they are not the first
  rcases hp : p.toList with _ | ⟨a, _ | ⟨b, _ | ⟨c, cs⟩⟩⟩
  · rw [hp] at h
    cases h
  · rw [hp] at h
    have ha : a ≠ '/' := by simpa using h
    simp [ha]
  · rw [hp] at h
    by_cases ha : a = '/'
    · have hb : b ≠ '/' := by simpa [ha] using h
      simp [ha, hb]
    · simp [ha]
  · by_cases ha : a = '/' <;> by_cases hb : b = '/' <;> by_cases hc : c = '/' <;> simp [ha, hb, hc]

section Below

variable {root d r : String}

theorem not_all_slashes_join (root : String) (hd : d.toList.all (· = '/') = false) :
    (join root d).toList.all (· = '/') = false := by
  unfold join
  split
  · exact hd
  · split <;> simp_all [String.toList_append, List.all_append]

theorem join_below (root : String) (hd : isAbsolute d = false)
    (hbelow : isAbsolute (d ++ "/" ++ r) = false) :
    join root (d ++ "/" ++ r) = join root d ++ "/" ++ r := by
  unfold join
  rw [hd, hbelow, if_neg Bool.false_ne_true, if_neg Bool.false_ne_true]
  split <;> simp only [String.append_assoc]

/-- Names with more names put behind them. -/
theorem ofComponents_below {ns : List String} (hns : ns ≠ []) (ms : List String) :
    ofComponents (ns ++ ms) = ofComponents ns ∨
      ofComponents (ns ++ ms) = ofComponents ns ++ "/" ++ spell ms := by
  by_cases hms : ms = []
  · rw [hms, List.append_nil]
    exact .inl rfl
  · rw [spell, if_neg hms]
    exact .inr (String.intercalate_append_of_ne_nil hns hms)

theorem mem_forms {cwd root p f : String} : f ∈ forms cwd root p ↔
    f = p ∨ f = absolute cwd (join root p) ∨ f = relative cwd (absolute cwd (join root p)) root := by
  simp only [forms, List.mem_cons, List.not_mem_nil, or_false]

/-- **The forms of a path below a directory** are the forms of the directory with the rest of the
path put behind, or the same if the rest leads nowhere. -/
theorem forms_below (cwd : String) (hroot : isAbsolute root = true) (hd : LeadsDown d)
    (hne : d ≠ ".") (hr : LeadsDown r) : ∀ f ∈ forms cwd root d,
      f ∈ forms cwd root (d ++ "/" ++ r) ∨ f ++ "/" ++ r ∈ forms cwd root (d ++ "/" ++ r) := by
  obtain ⟨ns, hdspell, hdwalk⟩ := hd.exists_names
  obtain ⟨ms, hrspell, hrwalk⟩ := hr.exists_names
  have hns : ns ≠ [] := by
    rintro rfl
    exact hne hdspell
  obtain ⟨c, cs, hdchars, hc⟩ := hd.exists_head
  have hslash : d.toList.all (· = '/') = false := by simp [hdchars, hc]
  have hbelow : isAbsolute (d ++ "/" ++ r) = false := by simp [isAbsolute, hdchars, hc]
  have hwalk : ∀ place, walk place (components (d ++ "/" ++ r)) = place ++ (ns ++ ms) := by
    intro place
    rw [components_append, walk_append, hdwalk, hrwalk, List.append_assoc]
  intro f hf
  rcases mem_forms.mp hf with hf | hf | hf
  · -- the path as it is given
    rw [hf]
    exact .inr (mem_forms.mpr (.inl rfl))
  · -- the absolute form: the slashes in front are the same
    have hslashes : leadingSlashes (join root (d ++ "/" ++ r)) = leadingSlashes (join root d) := by
      rw [join_below root hd.relative hbelow, String.append_assoc]
      exact leadingSlashes_append (not_all_slashes_join root hslash) _
    have hplace : place root ++ ns ≠ [] := List.append_ne_nil_of_right_ne_nil _ hns
    have hfull := absolute_join cwd hroot hbelow hwalk
    rw [hslashes, ← List.append_assoc] at hfull
    rw [hf, absolute_join cwd hroot hd.relative hdwalk, mem_forms, mem_forms, hfull]
    rcases ofComponents_below hplace ms with heq | heq
    · exact .inl (.inr (.inl (by rw [heq])))
    · rw [← hrspell] at heq
      exact .inr (.inr (.inl (by rw [heq]; simp only [String.append_assoc])))
  · -- the relative form is the path as it is given
    rw [hf, relative_join cwd hroot hd.relative hdwalk, ← hdspell]
    exact .inr (mem_forms.mpr (.inl rfl))

/-- **What leaves out a directory leaves out everything below it.** The directory is given by a
relative path, and so is what lies below. -/
theorem matchesAny_below (cwd : String) (hroot : isAbsolute root = true) (hd : LeadsDown d)
    (hne : d ≠ ".") (hr : LeadsDown r) {patterns : List String}
    (h : matchesAny cwd root (some d) patterns = true) :
    matchesAny cwd root (some (d ++ "/" ++ r)) patterns = true := by
  rw [matchesAny, Bool.and_eq_true, List.any_eq_true] at h ⊢
  obtain ⟨-, pattern, hpattern, hmatch⟩ := h
  refine ⟨by simp, pattern, hpattern, ?_⟩
  rw [patternMatches, Bool.and_eq_true, List.any_eq_true] at hmatch ⊢
  obtain ⟨hstripped, f, hf, hform⟩ := hmatch
  refine ⟨hstripped, ?_⟩
  -- each form of the directory is below itself for the path, or the same
  rcases forms_below cwd hroot hd hne hr f hf with hsame | hbelow
  · exact ⟨f, hsame, hform⟩
  · exact ⟨_, hbelow, formMatches_below hform r⟩

/-- The directory is found by a star, and by a bracket that is never closed. -/
theorem bracket_below :
    isAbsolute "/w" = true ∧ LeadsDown "lib/[a" ∧ "lib/[a" ≠ "." ∧ LeadsDown "x/b.rb" ∧
      matchesAny "/" "/w" (some "lib/[a") ["?*b/[a//"] = true ∧
      matchesAny "/" "/w" (some ("lib/[a" ++ "/" ++ "x/b.rb")) ["?*b/[a//"] = true := by
  have hroot : isAbsolute "/w" = true := by decide
  have hd : LeadsDown "lib/[a" := ⟨by decide, by decide, by decide⟩
  have hne : "lib/[a" ≠ "." := by decide
  have hr : LeadsDown "x/b.rb" := ⟨by decide, by decide, by decide⟩
  -- The pattern ends in slashes and has a bracket that nothing closes.
  have h : matchesAny "/" "/w" (some "lib/[a") ["?*b/[a//"] = true := by
    decide +kernel
  exact ⟨hroot, hd, hne, hr, h, matchesAny_below "/" hroot hd hne hr h⟩

end Below

end Path

end Lintel
