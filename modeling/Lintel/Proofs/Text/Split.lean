import Lintel.Text.Split
import Mathlib.Data.List.DropRight
import Mathlib.Data.List.Count

/-!
# Parts of a list

`splitOnChar` makes its parts from the end of a list. Readers come from the start: they have passed
some characters and want to know in which part they stand, and where. The number of separators
passed is the number of the part. What has been passed of the part is what follows the last
separator, `afterLast`, and what is still to come is what precedes the next one, `beforeFirst`
(`getElem?_splitOnChar_append`).

The same questions are asked about octets, so these are functions on lists of any kind.
-/

namespace Lintel

/-! ### Behind the last separator -/

section AfterLast

variable {α : Type} [DecidableEq α] {sep : α} {xs ys : List α}

/-- What follows the last `sep` of a list, or all of a list without one. -/
def afterLast (sep : α) (xs : List α) : List α :=
  xs.rtakeWhile fun x => decide (x ≠ sep)

@[simp] theorem afterLast_nil (sep : α) : afterLast sep [] = [] := rfl

theorem afterLast_of_not_mem (h : sep ∉ xs) : afterLast sep xs = xs := by
  rw [afterLast, List.rtakeWhile_eq_self_iff]
  intro x hx
  exact decide_eq_true (ne_of_mem_of_not_mem hx h)

theorem not_mem_afterLast (sep : α) (xs : List α) : sep ∉ afterLast sep xs := by
  intro h
  have hne := List.mem_rtakeWhile_imp h
  simp at hne

theorem afterLast_suffix (sep : α) (xs : List α) : afterLast sep xs <:+ xs :=
  List.rtakeWhile_suffix _ _

@[simp] theorem afterLast_concat_self (sep : α) (xs : List α) : afterLast sep (xs ++ [sep]) = [] :=
  List.rtakeWhile_concat_neg _ _ _ (by simp)

theorem afterLast_append_of_not_mem (xs : List α) (h : sep ∉ ys) :
    afterLast sep (xs ++ ys) = afterLast sep xs ++ ys := by
  -- The part is read from its end, so the induction takes elements off the right.
  induction ys using List.reverseRecOn with
  | nil => rw [List.append_nil, List.append_nil]
  | append_singleton ys y ih =>
    rw [List.mem_append, List.mem_singleton, not_or] at h
    have hlast : afterLast sep (xs ++ ys ++ [y]) = afterLast sep (xs ++ ys) ++ [y] :=
      List.rtakeWhile_concat_pos _ _ _ (decide_eq_true (Ne.symm h.2))
    rw [← List.append_assoc, hlast, ih h.1, List.append_assoc]

theorem afterLast_append_of_mem (xs : List α) (h : sep ∈ ys) :
    afterLast sep (xs ++ ys) = afterLast sep ys := by
  -- from the end: nothing before the last separator matters
  induction ys using List.reverseRecOn with
  | nil => cases h
  | append_singleton ys y ih =>
    rw [← List.append_assoc]
    by_cases hy : y = sep
    · rw [hy, afterLast_concat_self, afterLast_concat_self]
    · have hsep : sep ∉ [y] := fun hmem => hy (List.mem_singleton.mp hmem).symm
      rw [afterLast_append_of_not_mem _ hsep, afterLast_append_of_not_mem _ hsep]
      rcases List.mem_append.mp h with h | h
      · rw [ih h]
      · exact absurd h hsep

theorem afterLast_cons_self (sep : α) (xs : List α) :
    afterLast sep (sep :: xs) = afterLast sep xs := by
  by_cases h : sep ∈ xs
  · exact afterLast_append_of_mem [sep] h
  · have hcut := afterLast_append_of_not_mem [sep] h
    have hone : afterLast sep [sep] = [] := afterLast_concat_self sep []
    rw [List.singleton_append, hone, List.nil_append] at hcut
    rw [hcut, afterLast_of_not_mem h]

theorem exists_eq_append_afterLast (h : sep ∈ xs) : ∃ zs, xs = zs ++ sep :: afterLast sep xs := by
  induction xs using List.reverseRecOn with
  | nil => cases h
  | append_singleton xs x ih =>
    by_cases hx : x = sep
    · exact ⟨xs, by rw [hx, afterLast_concat_self]⟩
    · have hsep : sep ∉ [x] := fun hmem => hx (List.mem_singleton.mp hmem).symm
      -- the separator is further to the front
      obtain ⟨zs, hzs⟩ := ih ((List.mem_append.mp h).resolve_right hsep)
      refine ⟨zs, ?_⟩
      rw [afterLast_append_of_not_mem _ hsep, ← List.cons_append, ← List.append_assoc, ← hzs]

/-- What precedes the last part ends with a separator, unless it is empty. -/
theorem exists_append_afterLast (sep : α) (xs : List α) :
    ∃ zs, xs = zs ++ afterLast sep xs ∧ afterLast sep zs = [] := by
  by_cases h : sep ∈ xs
  · obtain ⟨zs, hzs⟩ := exists_eq_append_afterLast h
    exact ⟨zs ++ [sep], by rw [← List.append_cons, ← hzs], afterLast_concat_self sep zs⟩
  · exact ⟨[], by rw [afterLast_of_not_mem h, List.nil_append], rfl⟩

end AfterLast

/-! ### Before the first separator -/

section BeforeFirst

variable {α : Type} [DecidableEq α] {sep : α} {xs : List α}

/-- What precedes the first `sep` of a list, or all of a list without one. -/
def beforeFirst (sep : α) (xs : List α) : List α :=
  xs.takeWhile fun x => decide (x ≠ sep)

theorem not_mem_beforeFirst (sep : α) (xs : List α) : sep ∉ beforeFirst sep xs := by
  intro h
  have hne := List.mem_takeWhile_imp h
  simp at hne

theorem beforeFirst_append_of_not_mem (ys : List α) (h : sep ∉ xs) :
    beforeFirst sep (xs ++ ys) = xs ++ beforeFirst sep ys :=
  List.takeWhile_append_of_pos fun _ hx => decide_eq_true (ne_of_mem_of_not_mem hx h)

theorem beforeFirst_cons_self (sep : α) (xs : List α) : beforeFirst sep (sep :: xs) = [] :=
  List.takeWhile_cons_of_neg (by simp)

theorem beforeFirst_cons_of_ne {x : α} (h : x ≠ sep) (xs : List α) :
    beforeFirst sep (x :: xs) = x :: beforeFirst sep xs :=
  List.takeWhile_cons_of_pos (decide_eq_true h)

/-- A list goes on behind its first part with a separator, or not at all. -/
theorem exists_beforeFirst_append (sep : α) (xs : List α) :
    ∃ ys, xs = beforeFirst sep xs ++ ys ∧ beforeFirst sep ys = [] := by
  induction xs with
  | nil => exact ⟨[], rfl, rfl⟩
  | cons x xs ih =>
    -- A separator at the head opens the second part.
    by_cases hx : x = sep
    · exact ⟨x :: xs, by rw [hx, beforeFirst_cons_self]; rfl, by rw [hx, beforeFirst_cons_self]⟩
    · obtain ⟨ys, hxs, hys⟩ := ih
      exact ⟨ys, by rw [beforeFirst_cons_of_ne hx, List.cons_append, ← hxs], hys⟩

end BeforeFirst

/-! ### Cutting at a character -/

theorem splitOnChar_append (sep : Char) (xs ys : List Char) :
    splitOnChar sep (xs ++ sep :: ys) = splitOnChar sep xs ++ splitOnChar sep ys := by
  induction xs with
  | nil => simp [splitOnChar]
  | cons c xs ih =>
    rw [List.cons_append, splitOnChar, splitOnChar, ih]
    by_cases h : c = sep
    · rw [if_pos h, if_pos h, List.cons_append]
    · rw [if_neg h, if_neg h]
      -- a cut always has a first part, which is where the character goes
      have hne := splitOnChar_ne_nil sep xs
      cases hparts : splitOnChar sep xs with
      | nil => exact absurd hparts hne
      | cons part parts => rfl

theorem splitOnChar_of_not_mem {sep : Char} {xs : List Char} (h : sep ∉ xs) :
    splitOnChar sep xs = [xs] := by
  induction xs with
  | nil => rfl
  | cons c xs ih =>
    rw [List.mem_cons, not_or] at h
    rw [splitOnChar, if_neg (Ne.symm h.1), ih h.2]

theorem not_mem_of_mem_splitOnChar {sep : Char} {xs part : List Char}
    (h : part ∈ splitOnChar sep xs) : sep ∉ part := by
  induction xs generalizing part with
  | nil =>
    rw [List.mem_singleton.mp h]
    exact List.not_mem_nil
  | cons c xs ih =>
    rw [splitOnChar] at h
    split at h
    · rcases List.mem_cons.mp h with rfl | h
      · exact List.not_mem_nil
      · exact ih h
    · -- A character that is no separator joins the first part, of which the hypothesis speaks.
      next hc =>
      split at h
      · next heq => exact absurd heq (splitOnChar_ne_nil sep xs)
      · next first rest heq =>
        rw [heq] at ih
        rcases List.mem_cons.mp h with rfl | h
        · rw [List.mem_cons, not_or]
          exact ⟨Ne.symm hc, ih List.mem_cons_self⟩
        · exact ih (List.mem_cons_of_mem _ h)

theorem joinWith_cons {sep : Char} (part : List Char) {parts : List (List Char)} (h : parts ≠ []) :
    joinWith sep (part :: parts) = part ++ sep :: joinWith sep parts := by
  cases parts with
  | nil => exact absurd rfl h
  | cons next parts => rfl

/-- **Nothing is added**: cutting joined parts gives the parts back. -/
theorem splitOnChar_joinWith {sep : Char} {parts : List (List Char)} (hne : parts ≠ [])
    (h : ∀ part ∈ parts, sep ∉ part) : splitOnChar sep (joinWith sep parts) = parts := by
  induction parts with
  | nil => exact absurd rfl hne
  | cons part parts ih =>
    obtain ⟨hpart, hrest⟩ := List.forall_mem_cons.mp h
    -- the separator between this part and the next is the only place to cut
    by_cases hparts : parts = []
    · rw [hparts]
      exact splitOnChar_of_not_mem hpart
    · rw [joinWith_cons part hparts, splitOnChar_append, splitOnChar_of_not_mem hpart,
        ih hparts hrest, List.singleton_append]

/-! ### Words in a text -/

theorem occursIn_iff {w cs : List Char} : occursIn w cs = true ↔ w <:+: cs := by
  induction cs with
  | nil => rw [occursIn, List.isEmpty_iff, List.infix_nil]
  | cons c cs ih =>
    rw [occursIn, Bool.or_eq_true, List.isPrefixOf_iff_prefix, ih, List.infix_cons_iff]

theorem infix_append_cons {c : Char} {w xs ys : List Char} (hc : c ∉ w)
    (h : w <:+: xs ++ c :: ys) : w <:+: xs ∨ w <:+: ys := by
  obtain ⟨before, after, heq⟩ := h
  rcases List.append_eq_append_iff.mp heq with ⟨zs, rfl, -⟩ | ⟨zs, hzs, hys⟩
  · exact .inl ⟨before, zs, rfl⟩
  · -- the word ends behind the end of `xs`, so it begins behind the character
    rcases List.append_eq_append_iff.mp hzs with ⟨us, -, hw⟩ | ⟨us, rfl, hw⟩
    · cases zs with
      | nil =>
        rw [List.append_nil] at hzs
        exact .inl ⟨before, [], by rw [List.append_nil, hzs]⟩
      | cons z zs =>
        cases hys
        rw [hw] at hc
        exact absurd (List.mem_append_right us List.mem_cons_self) hc
    · rw [hw] at hys
      cases us with
      | nil =>
        cases w with
        | nil => exact .inl List.nil_infix
        | cons d w =>
          cases hys
          exact absurd List.mem_cons_self hc
      | cons u us =>
        cases hys
        exact .inr ⟨us, after, rfl⟩

/-- A word without `sep` lies in one of the parts. -/
theorem exists_infix_of_joinWith {sep : Char} {w : List Char} {parts : List (List Char)}
    (hne : parts ≠ []) (hw : sep ∉ w) (h : w <:+: joinWith sep parts) :
    ∃ part ∈ parts, w <:+: part := by
  induction parts with
  | nil => exact absurd rfl hne
  | cons part parts ih =>
    by_cases hparts : parts = []
    · rw [hparts] at h
      exact ⟨part, List.mem_cons_self, h⟩
    · rw [joinWith_cons part hparts] at h
      -- a word without the separator cannot reach across it
      rcases infix_append_cons hw h with h | h
      · exact ⟨part, List.mem_cons_self, h⟩
      · obtain ⟨other, hother, hinfix⟩ := ih hparts h
        exact ⟨other, List.mem_cons_of_mem _ hother, hinfix⟩

theorem infix_joinWith_of_mem (sep : Char) {part : List Char} {parts : List (List Char)}
    (h : part ∈ parts) : part <:+: joinWith sep parts := by
  induction parts with
  | nil => cases h
  | cons first parts ih =>
    by_cases hparts : parts = []
    · rw [hparts, List.mem_singleton] at h
      rw [hparts, h]
      exact List.infix_refl first
    · rw [joinWith_cons first hparts]
      -- at the front of what is joined, or further back
      rcases List.mem_cons.mp h with rfl | h
      · exact (List.prefix_append part _).isInfix
      · exact (ih h).trans ((List.suffix_cons sep _).trans (List.suffix_append first _)).isInfix

/-! ### The part in which a reader stands -/

theorem length_splitOnChar (sep : Char) (cs : List Char) :
    (splitOnChar sep cs).length = cs.count sep + 1 := by
  induction cs with
  | nil => rfl
  | cons c cs ih =>
    rw [splitOnChar]
    -- a separator begins a part, anything else belongs to the first one
    by_cases hc : c = sep
    · rw [if_pos hc, hc, List.count_cons_self, List.length_cons, ih]
    · rw [if_neg hc, List.count_cons_of_ne hc, ← ih]
      cases hparts : splitOnChar sep cs with
      | nil => exact absurd hparts (splitOnChar_ne_nil sep cs)
      | cons part parts => rfl

theorem getElem?_splitOnChar_zero (sep : Char) (cs : List Char) :
    (splitOnChar sep cs)[0]? = some (beforeFirst sep cs) := by
  induction cs with
  | nil => rfl
  | cons c cs ih =>
    rw [splitOnChar]
    by_cases hc : c = sep
    · rw [if_pos hc, hc, beforeFirst_cons_self]
      rfl
    · rw [if_neg hc, beforeFirst_cons_of_ne hc]
      cases hparts : splitOnChar sep cs with
      | nil => exact absurd hparts (splitOnChar_ne_nil sep cs)
      | cons part parts =>
        -- the character is put in front of the first part of the rest
        rw [hparts, List.getElem?_cons_zero] at ih
        rw [List.getElem?_cons_zero, Option.some.inj ih]

/-- **Behind some characters stands the part with the number of the separators among them.** It is
made of what follows the last of these and what precedes the next one. -/
theorem getElem?_splitOnChar_append (sep : Char) (ds es : List Char) :
    (splitOnChar sep (ds ++ es))[ds.count sep]?
      = some (afterLast sep ds ++ beforeFirst sep es) := by
  by_cases h : sep ∈ ds
  · obtain ⟨xs, hds⟩ := exists_eq_append_afterLast h
    have hys := not_mem_afterLast sep ds
    generalize afterLast sep ds = ys at hds hys ⊢
    -- the characters up to the last separator make up the parts before this one
    have hcount : ds.count sep = (splitOnChar sep xs).length := by
      rw [hds, List.count_append, List.count_cons_self, List.count_eq_zero_of_not_mem hys,
        length_splitOnChar]
    rw [hcount, hds, List.append_assoc, List.cons_append, splitOnChar_append,
      List.getElem?_append_right (Nat.le_refl _), Nat.sub_self, getElem?_splitOnChar_zero,
      beforeFirst_append_of_not_mem es hys]
  · rw [List.count_eq_zero_of_not_mem h, afterLast_of_not_mem h, getElem?_splitOnChar_zero,
      beforeFirst_append_of_not_mem es h]

end Lintel
