import Lintel.Proofs.Source.Memo
import Lintel.Proofs.Text.Location
import Lintel.Suppression

/-!
# The grammar of suppression comments

Suppression comments are read by functions that go through the lines of a text and keep a table of
names for each line. This module says what they mean without these functions. `Directive.Spells` is
the grammar of what follows the `#` of a directive, up to the end of its line, and
`Issue.SilencedIn` says which issues the directives of a text silence. `silences_iff` is the
agreement of the two.

**Reading.** The grammar asks for the longest list of names there is (`Directive.LongestList`). It
leaves the reader no choice: blanks, name characters and commas exclude each other, so a list at the
start of a text either lies in the first name or goes on behind the comma that follows it
(`NameList.cases_prefix`). From this it follows that what is read is the longest list
(`exists_longestList`), and as a list spells one sequence of names only
(`NameList.readNames_eq`), that reading and grammar are the same (`names?_eq_some`).

**The table.** Entries may be put into the table in any order, and two directives may be for one
line, the first of them standing on it and the other one on the line before. What matters is which
names a line is given, `Suppressions.Gives`. That there is one entry for each line makes the lookup
find all of them (`Sorted.mem_namesAt`).

**Lines.** Directives are counted by the lines of a text that is split at line feeds, and issues by
the line feeds in front of their first octet. `exists_in_line` and `locate_line` bring both to the
same number.
-/

namespace Lintel

/-! ### Cutting off the start of a list -/

section Cutting

variable {α : Type} {p : α → Bool} {xs : List α} {y : α}

theorem takeWhile_append_cons (hxs : ∀ x ∈ xs, p x = true) (hy : p y = false) (ys : List α) :
    (xs ++ y :: ys).takeWhile p = xs := by
  rw [List.takeWhile_append_of_pos hxs, List.takeWhile_cons_of_neg (by simp [hy]), List.append_nil]

theorem dropWhile_append_cons (hxs : ∀ x ∈ xs, p x = true) (hy : p y = false) (ys : List α) :
    (xs ++ y :: ys).dropWhile p = y :: ys := by
  rw [List.dropWhile_append_of_pos hxs, List.dropWhile_cons_of_neg (by simp [hy])]

end Cutting

namespace Directive

/-! ### Names and blanks -/

/-- A run of characters that names are made of. -/
structure IsName (name : List Char) : Prop where
  ne_nil : name ≠ []
  all : ∀ c ∈ name, isNameChar c = true

def Blanks (cs : List Char) : Prop :=
  ∀ c ∈ cs, isBlank c = true

/-- **Lists of names**: names with commas between them, and blanks around the commas. -/
inductive NameList : List (List Char) → List Char → Prop where
  | one {name : List Char} (h : IsName name) : NameList [name] name
  | more {name before after list : List Char} {names : List (List Char)} (h : IsName name)
      (hb : Blanks before) (ha : Blanks after) (hl : NameList names list) :
      NameList (name :: names) (name ++ (before ++ ',' :: (after ++ list)))

theorem isBlank_of_isNameChar {c : Char} (h : isNameChar c = true) : isBlank c = false := by
  change (decide (c.val ≥ 'A'.val ∧ c.val ≤ 'Z'.val)
    || (decide (c.val ≥ 'a'.val) && decide (c.val ≤ 'z'.val))
    || (decide (c.val ≥ '0'.val) && decide (c.val ≤ '9'.val))
    || decide (c = '_') || decide (c = '/')) = true at h
  simp only [Bool.or_eq_true, Bool.and_eq_true, decide_eq_true_eq, ge_iff_le,
    UInt32.le_iff_toNat_le] at h
  have hc : c.val.toNat = c.toNat := rfl
  rw [hc] at h
  -- all characters of names lie between the slash and the letter z, where no blank is
  have hrange : 0x2F ≤ c.toNat ∧ c.toNat ≤ 0x7A := by
    rcases h with ((h | h) | rfl) | rfl
    · rcases h with h | h
      · simp at h; omega
      · simp at h; omega
    · simp at h; omega
    · decide
    · decide
  simp only [isBlank, isWhiteSpace, Bool.or_eq_false_iff, Bool.and_eq_false_iff,
    decide_eq_false_iff_not, beq_eq_false_iff_ne]
  omega

theorem Blanks.not_nameChar {cs : List Char} (h : Blanks cs) (rest : List Char) :
    ∃ c ds, cs ++ ',' :: rest = c :: ds ∧ isNameChar c = false := by
  cases cs with
  | nil => exact ⟨',', rest, rfl, by decide⟩
  | cons c cs =>
    refine ⟨c, cs ++ ',' :: rest, rfl, ?_⟩
    cases hc : isNameChar c with
    | false => rfl
    | true =>
      -- a character of a name is no blank
      have hblank := h c List.mem_cons_self
      rw [isBlank_of_isNameChar hc] at hblank
      cases hblank

/-- A name ends where a comma with blanks in front of it follows. -/
theorem IsName.takeWhile_eq {name before : List Char} (h : IsName name) (hb : Blanks before)
    (rest : List Char) :
    (name ++ (before ++ ',' :: rest)).takeWhile isNameChar = name := by
  obtain ⟨c, cs, hcons, hc⟩ := hb.not_nameChar rest
  rw [hcons]
  exact takeWhile_append_cons h.all hc cs

theorem IsName.dropWhile_eq {name before : List Char} (h : IsName name) (hb : Blanks before)
    (rest : List Char) :
    (name ++ (before ++ ',' :: rest)).dropWhile isNameChar = before ++ ',' :: rest := by
  obtain ⟨c, cs, hcons, hc⟩ := hb.not_nameChar rest
  rw [hcons]
  exact dropWhile_append_cons h.all hc cs

theorem IsName.exists_cons {name : List Char} (h : IsName name) :
    ∃ c cs, name = c :: cs ∧ isNameChar c = true := by
  obtain ⟨c, cs, rfl⟩ := List.exists_cons_of_ne_nil h.ne_nil
  exact ⟨c, cs, rfl, h.all c List.mem_cons_self⟩

theorem NameList.exists_cons {names : List (List Char)} {list : List Char}
    (h : NameList names list) : ∃ c cs, list = c :: cs ∧ isNameChar c = true := by
  cases h with
  | one h => exact h.exists_cons
  | more h hb ha hl =>
    obtain ⟨c, cs, rfl, hc⟩ := h.exists_cons
    exact ⟨c, _, rfl, hc⟩

/-! ### Reading names -/

/-- The names at the start of a text, none if it does not begin with a name. -/
def readNames (cs : List Char) : List (List Char) :=
  let name := cs.takeWhile isNameChar
  if name.isEmpty then [] else name :: moreNames (cs.dropWhile isNameChar)

theorem names?_eq_some_iff {cs : List Char} {ns : List String} :
    names? cs = some ns ↔ readNames cs ≠ [] ∧ ns = (readNames cs).map String.ofList := by
  unfold names? readNames
  simp only
  split
  · simp
  · rw [Option.some.injEq]
    exact ⟨fun h => ⟨List.cons_ne_nil _ _, h.symm⟩, fun h => h.2.symm⟩

theorem moreNames_of_comma {cs rest : List Char} (h : cs.dropWhile isBlank = ',' :: rest) :
    moreNames cs = readNames (rest.dropWhile isBlank) := by
  rw [moreNames.eq_def]
  -- The text after the blanks is given, so only the branch of the comma remains.
  split
  · next rest' heq =>
    rw [h] at heq
    cases heq
    rfl
  · next hne => exact absurd h (hne rest)

theorem moreNames_of_not_comma {cs : List Char} (h : ∀ rest, cs.dropWhile isBlank ≠ ',' :: rest) :
    moreNames cs = [] := by
  rw [moreNames.eq_def]
  split
  · next rest heq => exact absurd heq (h rest)
  · rfl

theorem readNames_of_name {cs : List Char} (h : IsName (cs.takeWhile isNameChar)) :
    readNames cs = cs.takeWhile isNameChar :: moreNames (cs.dropWhile isNameChar) := by
  rw [readNames, if_neg (by simpa using h.ne_nil)]

/-- **A list of names is read as its names.** -/
theorem NameList.readNames_eq {names : List (List Char)} {list : List Char}
    (h : NameList names list) : readNames list = names := by
  -- on the list as the grammar builds it, which is how it is read
  induction h with
  | @one name h =>
    have htake : name.takeWhile isNameChar = name := List.takeWhile_eq_self_iff.mpr h.all
    rw [readNames_of_name (by rwa [htake]), htake, List.dropWhile_eq_nil_iff.mpr h.all,
      moreNames_of_not_comma (by simp)]
  | @more name before after list names h hb ha hl ih =>
    obtain ⟨d, ds, rfl, hd⟩ := hl.exists_cons
    have htake := h.takeWhile_eq hb (after ++ d :: ds)
    rw [readNames_of_name (by rwa [htake]), htake, h.dropWhile_eq hb,
      moreNames_of_comma (dropWhile_append_cons hb (by decide) _),
      dropWhile_append_cons ha (isBlank_of_isNameChar hd), ih]

theorem NameList.readNames_ne_nil {names : List (List Char)} {list cs : List Char}
    (h : NameList names list) (hp : list <+: cs) : readNames cs ≠ [] := by
  obtain ⟨c, ds, rfl, hc⟩ := h.exists_cons
  obtain ⟨tail, rfl⟩ := hp
  -- The first character of the list is a name character, so the first name read is not empty.
  have hname : (c :: ds ++ tail).takeWhile isNameChar ≠ [] := by
    rw [List.cons_append, List.takeWhile_cons_of_pos hc]
    exact List.cons_ne_nil _ _
  rw [readNames, if_neg (by simpa using hname)]
  exact List.cons_ne_nil _ _

/-- **A list of names at the start of a text** is part of a first name, or it is made of the first
name, a comma with the blanks around it, and a list of names at the start of what follows. -/
theorem NameList.cases_prefix {names : List (List Char)} {list cs : List Char}
    (h : NameList names list) (hp : list <+: cs) :
    list <+: cs.takeWhile isNameChar ∨
      ∃ rest names' list', (cs.dropWhile isNameChar).dropWhile isBlank = ',' :: rest ∧
        NameList names' list' ∧ list' <+: rest.dropWhile isBlank ∧
        list = cs.takeWhile isNameChar ++ ((cs.dropWhile isNameChar).takeWhile isBlank
          ++ ',' :: (rest.takeWhile isBlank ++ list')) := by
  obtain ⟨tail, rfl⟩ := hp
  cases h with
  | one h =>
    left
    rw [List.takeWhile_append_of_pos h.all]
    exact List.prefix_append _ _
  | @more name before after list' names' h hb ha hl =>
    -- blanks, name characters and commas exclude each other, so every part ends where it does
    right
    obtain ⟨d, ds, rfl, hd⟩ := hl.exists_cons
    have hsplit : name ++ (before ++ ',' :: (after ++ d :: ds)) ++ tail
        = name ++ (before ++ ',' :: (after ++ (d :: ds ++ tail))) := by
      simp only [List.append_assoc, List.cons_append]
    have htake := h.takeWhile_eq hb (after ++ (d :: ds ++ tail))
    have hdrop := h.dropWhile_eq hb (after ++ (d :: ds ++ tail))
    refine ⟨after ++ (d :: ds ++ tail), names', d :: ds, ?_, hl, ?_, ?_⟩
    · rw [hsplit, hdrop]
      exact dropWhile_append_cons hb (by decide) _
    · rw [List.cons_append, dropWhile_append_cons ha (isBlank_of_isNameChar hd)]
      exact ⟨tail, rfl⟩
    · rw [hsplit, htake, hdrop, takeWhile_append_cons hb (by decide), List.cons_append,
        takeWhile_append_cons ha (isBlank_of_isNameChar hd)]

/-- The longest list of names at the start of a text, which goes on with `tail`. -/
structure LongestList (names : List (List Char)) (list tail : List Char) : Prop where
  spelled : NameList names list
  longest : ∀ names' list', NameList names' list' → list' <+: list ++ tail →
    list'.length ≤ list.length

theorem isName_of_readNames {cs : List Char} (h : readNames cs ≠ []) :
    IsName (cs.takeWhile isNameChar) where
  ne_nil hnil := h (by rw [readNames, if_pos (by simp [hnil])])
  all _ hc := List.mem_takeWhile_imp hc

/-- Where no list follows the first name, the first name is the longest list. -/
theorem LongestList.one {cs : List Char} (h : IsName (cs.takeWhile isNameChar))
    (hnone : moreNames (cs.dropWhile isNameChar) = []) :
    LongestList [cs.takeWhile isNameChar] (cs.takeWhile isNameChar)
      (cs.dropWhile isNameChar) where
  spelled := .one h
  longest names' list' hlist' hprefix := by
    rw [List.takeWhile_append_dropWhile] at hprefix
    rcases hlist'.cases_prefix hprefix with hshort | ⟨rest, names'', list'', hcomma, hl, hp, -⟩
    · exact hshort.length_le
    · -- a list that goes on would have been read
      rw [moreNames_of_comma hcomma] at hnone
      exact absurd hnone (hl.readNames_ne_nil hp)

/-- Where a comma follows the first name, and a list the comma, the longest list goes on with the
longest one behind the comma. -/
theorem LongestList.more {cs rest list tail : List Char} {names : List (List Char)}
    (hname : IsName (cs.takeWhile isNameChar))
    (hcomma : (cs.dropWhile isNameChar).dropWhile isBlank = ',' :: rest)
    (hrest : rest.dropWhile isBlank = list ++ tail) (h : LongestList names list tail) :
    ∃ list', cs = list' ++ tail ∧ LongestList (cs.takeWhile isNameChar :: names) list' tail := by
  have hcs : cs.takeWhile isNameChar ++ ((cs.dropWhile isNameChar).takeWhile isBlank
      ++ ',' :: (rest.takeWhile isBlank ++ list)) ++ tail = cs := by
    rw [List.append_assoc, List.append_assoc, List.cons_append, List.append_assoc, ← hrest,
      List.takeWhile_append_dropWhile, ← hcomma, List.takeWhile_append_dropWhile,
      List.takeWhile_append_dropWhile]
  refine ⟨_, hcs.symm, .more hname (fun c hc => List.mem_takeWhile_imp hc)
    (fun c hc => List.mem_takeWhile_imp hc) h.spelled, ?_⟩
  intro names' list' hlist' hprefix
  rw [hcs] at hprefix
  rcases hlist'.cases_prefix hprefix with
    hshort | ⟨rest', names'', list'', hcomma', hl, hp, heq⟩
  · have hle := hshort.length_le
    rw [List.length_append]
    omega
  · -- the comma is the same, so the lists behind it are to be compared
    rw [hcomma] at hcomma'
    cases hcomma'
    have hle := h.longest _ _ hl (hrest ▸ hp)
    rw [heq]
    simp only [List.length_append, List.length_cons]
    omega

/-- **The longest list is read.** The induction is on the length of the text, and goes on behind the
comma after the first name. -/
theorem exists_longestList (cs : List Char) (h : readNames cs ≠ []) :
    ∃ list tail, cs = list ++ tail ∧ LongestList (readNames cs) list tail := by
  induction hn : cs.length using Nat.strong_induction_on generalizing cs with
  | _ n ih =>
    have hname := isName_of_readNames h
    rw [readNames_of_name hname]
    -- the first name alone, or a comma with another list behind it
    by_cases hmore : moreNames (cs.dropWhile isNameChar) = []
    · rw [hmore]
      exact ⟨_, _, List.takeWhile_append_dropWhile.symm, .one hname hmore⟩
    · obtain ⟨rest, hcomma⟩ : ∃ rest, (cs.dropWhile isNameChar).dropWhile isBlank = ',' :: rest := by
        by_contra hnot
        exact hmore (moreNames_of_not_comma fun rest h => hnot ⟨rest, h⟩)
      rw [moreNames_of_comma hcomma] at hmore ⊢
      have hlen : (rest.dropWhile isBlank).length < n := by
        have hname := List.length_dropWhile_le isNameChar cs
        have hbefore := List.length_dropWhile_le isBlank (cs.dropWhile isNameChar)
        have hafter := List.length_dropWhile_le isBlank rest
        rw [hcomma, List.length_cons] at hbefore
        omega
      obtain ⟨list, tail, hrest, hlongest⟩ := ih _ hlen _ hmore rfl
      obtain ⟨list', hcs, hlongest'⟩ := LongestList.more hname hcomma hrest hlongest
      exact ⟨list', tail, hcs, hlongest'⟩

/-- **Reading names is taking the longest list**: the grammar leaves no choice. -/
theorem names?_eq_some {cs : List Char} {ns : List String} :
    names? cs = some ns ↔ ∃ names list tail, cs = list ++ tail ∧ LongestList names list tail ∧
      ns = names.map String.ofList := by
  rw [names?_eq_some_iff]
  constructor
  · rintro ⟨hne, rfl⟩
    obtain ⟨list, tail, hcs, hlongest⟩ := exists_longestList cs hne
    exact ⟨readNames cs, list, tail, hcs, hlongest, rfl⟩
  · rintro ⟨names, list, tail, rfl, ⟨hspelled, hlongest⟩, rfl⟩
    have hprefix : list <+: list ++ tail := List.prefix_append _ _
    have hne := hspelled.readNames_ne_nil hprefix
    obtain ⟨list', tail', hcs, hspelled', hlongest'⟩ := exists_longestList (list ++ tail) hne
    have hprefix' : list' <+: list ++ tail := ⟨tail', hcs.symm⟩
    -- two longest lists at the start of one text are the same
    obtain rfl : list = list' := by
      have hle := hlongest _ _ hspelled' hprefix'
      have hge := hlongest' _ _ hspelled (hcs ▸ hprefix)
      exact (List.prefix_of_prefix_length_le hprefix hprefix' hge).eq_of_length (by omega)
    refine ⟨hne, ?_⟩
    rw [← hspelled.readNames_eq, ← hspelled'.readNames_eq]

/-! ### Reading a directive -/

def word : Reach → List Char
  | .sameLine => "autolint:disable".toList
  | .nextLine => "autolint:disable-next-line".toList

/-- **What follows the word of a directive**: at least one blank, and the longest list of names
there is. -/
def Follows (cs : List Char) (ns : List String) : Prop :=
  ∃ blanks list tail names, cs = blanks ++ (list ++ tail) ∧ blanks ≠ [] ∧ Blanks blanks ∧
    LongestList names list tail ∧ ns = names.map String.ofList

/-- **What follows the `#` of a directive**: blanks or none, the word, and what follows it. -/
def Spells (cs : List Char) (d : Directive) : Prop :=
  ∃ gap rest, cs = gap ++ (word d.reach ++ rest) ∧ Blanks gap ∧ Follows rest d.names

theorem word_nextLine : word .nextLine = word .sameLine ++ "-next-line".toList := by
  decide +kernel

/-- The word begins with a letter. -/
theorem exists_word_cons (r : Reach) : ∃ ws, word r = 'a' :: ws := by
  cases r with
  | sameLine => exact ⟨"utolint:disable".toList, by decide +kernel⟩
  | nextLine => exact ⟨"utolint:disable-next-line".toList, by decide +kernel⟩

theorem after?_eq_some {w cs rest : List Char} : after? w cs = some rest ↔ cs = w ++ rest := by
  unfold after?
  split
  · -- the word is at the front, and what follows it is unique
    next h =>
    obtain ⟨tail, rfl⟩ := List.isPrefixOf_iff_prefix.mp h
    rw [List.drop_left, Option.some.injEq, List.append_cancel_left_eq]
  · next h =>
    refine ⟨fun hnone => (by cases hnone), fun hcs => ?_⟩
    exact absurd (List.isPrefixOf_iff_prefix.mpr ⟨rest, hcs.symm⟩) h

theorem withReach?_eq_some {reach : Reach} {cs : List Char} {d : Directive} :
    withReach? reach cs = some d ↔ d.reach = reach ∧ Follows cs d.names := by
  constructor
  · intro h
    cases cs with
    | nil => cases h
    | cons c cs =>
      rw [withReach?] at h
      split at h
      · next hc =>
        obtain ⟨ns, hns, rfl⟩ := Option.map_eq_some_iff.mp h
        obtain ⟨names, list, tail, hcs, hlongest, rfl⟩ := names?_eq_some.mp hns
        -- the blanks of the grammar are the first character and those that are skipped
        refine ⟨rfl, c :: cs.takeWhile isBlank, list, tail, names, ?_, List.cons_ne_nil _ _, ?_,
          hlongest, rfl⟩
        · rw [← hcs, List.cons_append, List.takeWhile_append_dropWhile]
        · intro b hb
          rcases List.mem_cons.mp hb with rfl | hb
          · exact hc
          · exact List.mem_takeWhile_imp hb
      · cases h
  · rintro ⟨rfl, blanks, list, tail, names, rfl, hne, hblanks, hlongest, hnames⟩
    obtain ⟨c, bs, rfl⟩ := List.exists_cons_of_ne_nil hne
    obtain ⟨a, as, hlist, ha⟩ := hlongest.spelled.exists_cons
    -- the skipping of blanks stops at the list, which begins with a name
    have hdrop : (bs ++ (list ++ tail)).dropWhile isBlank = list ++ tail := by
      rw [hlist, List.cons_append]
      exact dropWhile_append_cons (fun b hb => hblanks b (List.mem_cons_of_mem _ hb))
        (isBlank_of_isNameChar ha) _
    rw [List.cons_append, withReach?, if_pos (hblanks c List.mem_cons_self), hdrop,
      names?_eq_some.mpr ⟨names, list, tail, rfl, hlongest, hnames⟩]
    rfl

theorem Follows.after?_dash {cs : List Char} {ns : List String} (h : Follows cs ns) :
    after? "-next-line".toList cs = none := by
  obtain ⟨blanks, list, tail, names, rfl, hne, hblanks, -⟩ := h
  obtain ⟨c, bs, rfl⟩ := List.exists_cons_of_ne_nil hne
  have hc := hblanks c List.mem_cons_self
  -- the longer word goes on with a dash, and what follows begins with a blank
  have hdash : "-next-line".toList = '-' :: "next-line".toList := by decide +kernel
  unfold after?
  rw [if_neg]
  intro hprefix
  obtain ⟨rest, hrest⟩ := List.isPrefixOf_iff_prefix.mp hprefix
  rw [hdash, List.cons_append, List.cons_append, List.cons.injEq] at hrest
  rw [← hrest.1] at hc
  cases hc

theorem spells_of_read? {cs : List Char} {d : Directive} (h : read? cs = some d) :
    Spells cs d := by
  unfold read? at h
  have hcs : cs.takeWhile isBlank ++ cs.dropWhile isBlank = cs := List.takeWhile_append_dropWhile
  have hgap : Blanks (cs.takeWhile isBlank) := fun c hc => List.mem_takeWhile_imp hc
  split at h
  · cases h
  · next rest hrest =>
    rw [after?_eq_some] at hrest
    -- what follows the shorter word may be the end of the longer one
    rw [hrest] at hcs
    split at h
    · next rest' hrest' =>
      rw [after?_eq_some] at hrest'
      obtain ⟨hreach, hfollows⟩ := withReach?_eq_some.mp h
      refine ⟨cs.takeWhile isBlank, rest', ?_, hgap, hfollows⟩
      rw [hreach, word_nextLine, List.append_assoc, ← hrest']
      exact hcs.symm
    · obtain ⟨hreach, hfollows⟩ := withReach?_eq_some.mp h
      refine ⟨cs.takeWhile isBlank, rest, ?_, hgap, hfollows⟩
      rw [hreach]
      exact hcs.symm

theorem Spells.read?_eq {cs : List Char} {d : Directive} (h : Spells cs d) :
    read? cs = some d := by
  obtain ⟨gap, rest, rfl, hgap, hfollows⟩ := h
  obtain ⟨ws, hws⟩ := exists_word_cons d.reach
  -- blanks are skipped up to the word, which begins with a letter
  have hdrop : (gap ++ (word d.reach ++ rest)).dropWhile isBlank = word d.reach ++ rest := by
    rw [hws]
    exact dropWhile_append_cons hgap (by decide) _
  unfold read?
  rw [hdrop]
  cases hreach : d.reach with
  | sameLine =>
    have hword : after? "autolint:disable".toList (word .sameLine ++ rest) = some rest :=
      after?_eq_some.mpr rfl
    rw [hword]
    simp only
    -- A blank follows the word, so the longer word is not there.
    rw [hfollows.after?_dash]
    exact withReach?_eq_some.mpr ⟨hreach, hfollows⟩
  | nextLine =>
    -- the shorter word is read first, and then the rest of the longer one
    have hword : after? "autolint:disable".toList (word .nextLine ++ rest)
        = some ("-next-line".toList ++ rest) := by
      rw [after?_eq_some, word_nextLine, List.append_assoc]
      rfl
    have hlong : after? "-next-line".toList ("-next-line".toList ++ rest) = some rest :=
      after?_eq_some.mpr rfl
    rw [hword]
    simp only
    rw [hlong]
    exact withReach?_eq_some.mpr ⟨hreach, hfollows⟩

/-- **A directive is read exactly where the grammar has one.** -/
theorem read?_eq_some {cs : List Char} {d : Directive} : read? cs = some d ↔ Spells cs d :=
  ⟨spells_of_read?, Spells.read?_eq⟩

/-- **Every `#` of a line is read on its own.** -/
theorem mem_inLine {cs : List Char} {d : Directive} :
    d ∈ inLine cs ↔ ∃ before after, cs = before ++ '#' :: after ∧ Spells after d := by
  induction cs with
  -- An empty line has no `#` to begin with.
  | nil =>
    refine ⟨fun h => (by cases h), ?_⟩
    rintro ⟨before, after, h, -⟩
    cases before <;> cases h
  | cons c cs ih =>
    -- a `#` is read whether or not a directive before it goes on behind it
    have hcons : d ∈ inLine (c :: cs) ↔ (c = '#' ∧ read? cs = some d) ∨ d ∈ inLine cs := by
      rw [inLine]
      by_cases hc : c = '#'
      · rw [if_pos hc]
        cases hread : read? cs with
        | none => simp [hc]
        | some d' => simp [hc, eq_comm]
      · rw [if_neg hc]
        simp [hc]
    rw [hcons, ih, read?_eq_some]
    constructor
    · rintro (⟨rfl, hspells⟩ | ⟨before, after, rfl, hspells⟩)
      · exact ⟨[], cs, rfl, hspells⟩
      · exact ⟨c :: before, after, rfl, hspells⟩
    · rintro ⟨before, after, heq, hspells⟩
      cases before with
      | nil =>
        cases heq
        exact .inl ⟨rfl, hspells⟩
      | cons b before =>
        cases heq
        exact .inr ⟨before, after, rfl, hspells⟩

end Directive

/-! ### The names for a line -/

namespace Suppressions

/-- The entries are in the order of their lines, and each line has one. -/
def Sorted (s : Suppressions) : Prop :=
  s.Pairwise fun a b => a.1 < b.1

/-- A name is silenced on a line. -/
def Gives (s : Suppressions) (line : Nat) (n : String) : Prop :=
  ∃ entry ∈ s, entry.1 = line ∧ n ∈ entry.2

theorem Sorted.mem_namesAt {s : Suppressions} (h : s.Sorted) {k : Int} {n : String} :
    n ∈ s.namesAt k ↔ ∃ line : Nat, (line : Int) = k ∧ s.Gives line n := by
  unfold namesAt
  constructor
  · intro hn
    split at hn
    · next line names hfind =>
      refine ⟨line, ?_, (line, names), List.mem_of_find?_eq_some hfind, rfl, hn⟩
      simpa using List.find?_some hfind
    · cases hn
  · rintro ⟨line, rfl, entry, hentry, rfl, hn⟩
    have hnodup : (s.map Prod.fst).Nodup :=
      List.pairwise_map.mpr (h.imp fun hlt => Nat.ne_of_lt hlt)
    split
    · next line names hfind =>
      -- the entry that is found is the only one for the line
      have hline : line = entry.1 := Int.ofNat_inj.mp (by simpa using List.find?_some hfind)
      have hsame : (line, names) = entry :=
        List.inj_on_of_nodup_map hnodup (List.mem_of_find?_eq_some hfind) hentry hline
      rwa [← hsame] at hn
    · next hfind =>
      have hnot := List.find?_eq_none.mp hfind entry hentry
      simp at hnot

variable {line : Nat} {names : List String} {s : Suppressions}

theorem gives_add {k : Nat} {n : String} :
    (add line names s).Gives k n ↔ (line = k ∧ n ∈ names) ∨ s.Gives k n := by
  induction s with
  | nil => simp [add, Gives]
  | cons entry s ih =>
    obtain ⟨l, ns⟩ := entry
    -- an entry gives its names for its own line
    have hcons : ∀ (t : Suppressions) (l : Nat) (ns : List String),
        Gives ((l, ns) :: t) k n ↔ (l = k ∧ n ∈ ns) ∨ t.Gives k n := by
      intro t l ns
      simp [Gives]
    rw [add]
    split
    · next h =>
      rw [hcons, hcons, List.mem_append, h]
      tauto
    · split
      · rw [hcons]
      · rw [hcons, hcons, ih]
        tauto

theorem exists_of_mem_add {entry : Nat × List String} (h : entry ∈ add line names s) :
    entry.1 = line ∨ ∃ e ∈ s, entry.1 = e.1 := by
  induction s with
  | nil => exact .inl (by rw [List.mem_singleton.mp h])
  | cons e s ih =>
    obtain ⟨l, ns⟩ := e
    rw [add] at h
    split at h
    · -- the line has an entry already, which takes up the names
      rcases List.mem_cons.mp h with rfl | h
      · exact .inr ⟨(l, ns), List.mem_cons_self, rfl⟩
      · exact .inr ⟨entry, List.mem_cons_of_mem _ h, rfl⟩
    · split at h
      · rcases List.mem_cons.mp h with rfl | h
        · exact .inl rfl
        · exact .inr ⟨entry, h, rfl⟩
      · rcases List.mem_cons.mp h with rfl | h
        · exact .inr ⟨(l, ns), List.mem_cons_self, rfl⟩
        · rcases ih h with h | ⟨e, he, heq⟩
          · exact .inl h
          · exact .inr ⟨e, List.mem_cons_of_mem _ he, heq⟩

theorem Sorted.add (h : s.Sorted) (line : Nat) (names : List String) :
    (add line names s).Sorted := by
  induction s with
  | nil => exact List.pairwise_singleton _ _
  | cons e s ih =>
    obtain ⟨l, ns⟩ := e
    obtain ⟨hfirst, hrest⟩ := List.pairwise_cons.mp h
    rw [Suppressions.add]
    split
    · exact List.pairwise_cons.mpr ⟨hfirst, hrest⟩
    · next hne =>
      split
      · next hlt =>
        -- the new entry is put before the first one for a later line
        refine List.pairwise_cons.mpr ⟨fun e he => ?_, h⟩
        rcases List.mem_cons.mp he with rfl | he
        · exact hlt
        · exact Nat.lt_trans hlt (hfirst e he)
      · next hge =>
        -- it goes behind an entry for an earlier line, which stays the first
        refine List.pairwise_cons.mpr ⟨fun e he => ?_, ih hrest⟩
        simp only
        rcases exists_of_mem_add he with heq | ⟨e', he', heq⟩
        · omega
        · rw [heq]
          exact hfirst e' he'

theorem foldl_add (line : Nat) (ds : List Directive) (h : s.Sorted) :
    (ds.foldl (fun acc d => add (d.target line) d.names acc) s).Sorted ∧
      ∀ k n, (ds.foldl (fun acc d => add (d.target line) d.names acc) s).Gives k n ↔
        s.Gives k n ∨ ∃ d ∈ ds, d.target line = k ∧ n ∈ d.names := by
  -- each directive adds its names and keeps the lines in order
  induction ds generalizing s with
  | nil => exact ⟨h, by simp⟩
  | cons d ds ih =>
    obtain ⟨hsorted, hgives⟩ := ih (h.add (d.target line) d.names)
    refine ⟨hsorted, fun k n => ?_⟩
    rw [List.foldl_cons, hgives, gives_add]
    simp only [List.mem_cons, exists_eq_or_imp]
    tauto

/-- The names of the directives on some lines. -/
theorem addLines_gives (line : Nat) (ls : List (List Char)) (h : s.Sorted) :
    (addLines line ls s).Sorted ∧
      ∀ k n, (addLines line ls s).Gives k n ↔ s.Gives k n ∨
        ∃ (i : Nat) (l : List Char) (d : Directive), ls[i]? = some l ∧ d ∈ Directive.inLine l ∧
          d.target (line + i) = k ∧ n ∈ d.names := by
  induction ls generalizing line s with
  | nil => exact ⟨h, by simp [addLines]⟩
  | cons l ls ih =>
    obtain ⟨hline, hnames⟩ := foldl_add line (Directive.inLine l) h
    obtain ⟨hsorted, hgives⟩ := ih (line + 1) hline
    refine ⟨hsorted, fun k n => ?_⟩
    rw [addLines, hgives, hnames, or_assoc]
    -- the directives of the first line, and those of the lines behind it, counted from there
    refine or_congr_right ?_
    constructor
    · rintro (⟨d, hd, hk, hn⟩ | ⟨i, l', d, hl, hd, hk, hn⟩)
      · exact ⟨0, l, d, rfl, hd, hk, hn⟩
      · exact ⟨i + 1, l', d, hl, hd, by rwa [← Nat.add_assoc, Nat.add_right_comm], hn⟩
    · rintro ⟨i, l', d, hl, hd, hk, hn⟩
      cases i with
      | zero =>
        cases hl
        exact .inl ⟨d, hd, hk, hn⟩
      | succ i =>
        exact .inr ⟨i, l', d, hl, hd, by rwa [Nat.add_right_comm, Nat.add_assoc], hn⟩

/-! ### The directives of a text -/

/-- **A character in a line of a text is a character of the text**, and the number of the line is
that of the line feeds in front of it. -/
theorem exists_in_line {cs : List Char} {c : Char} (hc : c ≠ '\n') {i : Nat} {after : List Char} :
    (∃ before, (splitLines cs)[i]? = some (before ++ c :: after)) ↔
      ∃ before rest, cs = before ++ c :: rest ∧ before.count '\n' = i ∧
        beforeFirst '\n' rest = after := by
  constructor
  · rintro ⟨before, hline⟩
    obtain ⟨hi, -⟩ := List.getElem?_eq_some_iff.mp hline
    -- `ds` ends with the line feed before the line, and the line is the first one of `es`
    obtain ⟨ds, es, rfl, rfl, hds⟩ := exists_line hi
    rw [splitLines, getElem?_splitOnChar_append, hds, List.nil_append, Option.some.injEq] at hline
    obtain ⟨ys, hes, hys⟩ := exists_beforeFirst_append '\n' es
    have hsep := not_mem_beforeFirst '\n' es
    rw [hline] at hes hsep
    rw [List.mem_append, List.mem_cons, not_or, not_or] at hsep
    refine ⟨ds ++ before, after ++ ys, ?_, ?_, ?_⟩
    · rw [hes, List.append_assoc, List.append_assoc, List.cons_append]
    · rw [List.count_append, List.count_eq_zero_of_not_mem hsep.1, Nat.add_zero]
    · rw [beforeFirst_append_of_not_mem _ hsep.2.2, hys, List.append_nil]
  · rintro ⟨before, rest, rfl, rfl, rfl⟩
    -- the line goes from the last line feed in front of the character to the first one behind it
    refine ⟨afterLast '\n' before, ?_⟩
    rw [splitLines, getElem?_splitOnChar_append, beforeFirst_cons_of_ne hc]

/-- **The names for a line** are those of the directives that the grammar finds in the text and that
are for the line. -/
theorem ofText_gives {text : String} {k : Nat} {n : String} :
    (ofText text).Gives k n ↔ ∃ before after d, text.toList = before ++ '#' :: after ∧
      Directive.Spells (beforeFirst '\n' after) d ∧ d.target (before.count '\n' + 1) = k ∧
      n ∈ d.names := by
  have hgives := (addLines_gives 1 (splitLines text.toList)
    (s := []) List.Pairwise.nil).2 k n
  rw [ofText, hgives]
  constructor
  · rintro (⟨entry, hentry, -⟩ | ⟨i, l, d, hl, hd, hk, hn⟩)
    · cases hentry
    · obtain ⟨before, after, rfl, hspells⟩ := Directive.mem_inLine.mp hd
      -- a place in a line, told as a place in the text
      obtain ⟨before', rest, htext, rfl, rfl⟩ :=
        (exists_in_line (c := '#') (by decide)).mp ⟨before, hl⟩
      exact ⟨before', rest, d, htext, hspells, by rwa [Nat.add_comm], hn⟩
  · rintro ⟨before, after, d, htext, hspells, hk, hn⟩
    obtain ⟨start, hline⟩ :=
      (exists_in_line (c := '#') (by decide)).mpr ⟨before, after, htext, rfl, rfl⟩
    exact .inr ⟨_, _, d, hline, Directive.mem_inLine.mpr ⟨start, _, rfl, hspells⟩,
      by rwa [Nat.add_comm], hn⟩

theorem sorted_ofText (text : String) : (ofText text).Sorted :=
  (addLines_gives 1 (splitLines text.toList) List.Pairwise.nil).1

/-! ### The word of a directive in a text -/

theorem occursIn_of_spells {text : String} {before after : List Char} {d : Directive}
    (htext : text.toList = before ++ '#' :: after)
    (hspells : Directive.Spells (beforeFirst '\n' after) d) :
    occursIn "autolint:disable".toList text.toList = true := by
  obtain ⟨gap, rest, hafter, -, -⟩ := hspells
  obtain ⟨ys, hys, -⟩ := exists_beforeFirst_append '\n' after
  -- both words begin with the one that is searched for
  obtain ⟨ws, hws⟩ : ∃ ws, Directive.word d.reach = "autolint:disable".toList ++ ws := by
    cases d.reach with
    | sameLine => exact ⟨[], (List.append_nil _).symm⟩
    | nextLine => exact ⟨_, Directive.word_nextLine⟩
  rw [hafter, hws] at hys
  refine occursIn_iff.mpr ⟨before ++ '#' :: gap, ws ++ (rest ++ ys), ?_⟩
  rw [htext, hys]
  simp only [List.append_assoc, List.cons_append]

/-- **Searching the text for the word first makes no difference.** -/
theorem silences_inForce (text : String) (i : Issue) :
    (inForce text).silences i = (ofText text).silences i := by
  unfold inForce
  split
  · rfl
  · next hnot =>
    -- without the word there is no directive, and the table has no names
    have hnone : (ofText text).namesAt i.location.line = [] := by
      rw [List.eq_nil_iff_forall_not_mem]
      intro n hn
      obtain ⟨line, -, hgives⟩ := (sorted_ofText text).mem_namesAt.mp hn
      obtain ⟨before, after, d, htext, hspells, -, -⟩ := ofText_gives.mp hgives
      exact hnot (occursIn_of_spells htext hspells)
    rw [silences, silences, hnone]
    rfl

end Suppressions

/-! ### The issues that are silenced -/

theorem shortName_append {front : String} (h : '/' ∉ front.toList) (n : String) :
    shortName (front ++ "/" ++ n) = n := by
  have hchars : (front ++ "/" ++ n).toList = front.toList ++ '/' :: n.toList := by
    rw [String.toList_append, String.toList_append, List.append_assoc]
    rfl
  -- the first slash is the one in between
  have hdrop : (front.toList ++ '/' :: n.toList).dropWhile (fun c => decide (c ≠ '/'))
      = '/' :: n.toList :=
    dropWhile_append_cons (fun c hc => decide_eq_true (ne_of_mem_of_not_mem hc h)) (by simp) _
  unfold shortName
  rw [hchars, hdrop]
  exact String.ofList_toList

theorem eq_shortName_iff {name n : String} (h : '/' ∈ name.toList) :
    n = shortName name ↔ ∃ front : String, '/' ∉ front.toList ∧ name = front ++ "/" ++ n := by
  constructor
  · rintro rfl
    obtain ⟨front, rest, hchars, hfront⟩ := List.eq_append_cons_of_mem h
    -- cut at the first slash
    have hname : name = String.ofList front ++ "/" ++ String.ofList rest := by
      refine String.toList_inj.mp ?_
      rw [String.toList_append, String.toList_append, String.toList_ofList, String.toList_ofList,
        hchars, List.append_assoc]
      rw [List.singleton_append, String.toList_ofList]
    have hfront' : '/' ∉ (String.ofList front).toList := by rwa [String.toList_ofList]
    refine ⟨String.ofList front, hfront', ?_⟩
    have hshort := shortName_append hfront' (String.ofList rest)
    rw [← hname] at hshort
    rw [hshort]
    exact hname
  · rintro ⟨front, hfront, rfl⟩
    exact (shortName_append hfront n).symm

namespace Issue

/-- **The names that an issue answers to**: the full name of its rule, the part of it after the
first slash, and its group. -/
def AnswersTo (i : Issue) (n : String) : Prop :=
  n = i.rule ∨ (∃ front : String, '/' ∉ front.toList ∧ i.rule = front ++ "/" ++ n) ∨ n = i.group

/-- **A comment of the text silences the issue.** One of the `#` of the text begins a directive on
its line, and nothing that stands elsewhere on the line matters. The directive has a name that the
issue answers to. It stands on the line in which the issue starts, or on the line before and is for
the next one; lines are told by the line feeds in front of them. -/
def SilencedIn (i : Issue) (text : String) : Prop :=
  i.rule ≠ "Lint/Syntax" ∧
    ∃ before after d, text.toList = before ++ '#' :: after ∧
      Directive.Spells (beforeFirst '\n' after) d ∧ (∃ n ∈ d.names, i.AnswersTo n) ∧
      ((Utf8.ofString text).take (clampOffset (Utf8.ofString text).length i.start)).count newline
        = match d.reach with
          | .sameLine => before.count '\n'
          | .nextLine => before.count '\n' + 1

end Issue

/-- A directive is for the line with a number if it stands on that line or on the one before,
according to its word. Lines are counted from 1, and the line feeds in front of them from 0. -/
theorem Directive.target_eq_iff {d : Directive} {k row : Nat} : d.target (k + 1) = row + 1 ↔
    row = match d.reach with
      | .sameLine => k
      | .nextLine => k + 1 := by
  unfold target
  cases d.reach with
  | sameLine =>
    -- Rows are counted from zero and lines from one.
    simp only
    omega
  | nextLine =>
    simp only
    omega

/-- **The table silences what the grammar says.** -/
theorem silences_iff (text : String) {i : Issue}
    (hlocation : i.location = locate (Utf8.ofString text) i.start) (hslash : '/' ∈ i.rule.toList) :
    (Suppressions.inForce text).silences i = true ↔ i.SilencedIn text := by
  have hnamed : ∀ n, (n == i.rule || n == shortName i.rule || n == i.group) = true ↔
      i.AnswersTo n := by
    intro n
    rw [Issue.AnswersTo, ← eq_shortName_iff hslash]
    simp [or_assoc]
  rw [Suppressions.silences_inForce, Suppressions.silences, Bool.and_eq_true, bne_iff_ne,
    List.any_eq_true]
  refine and_congr_right fun _ => ?_
  simp only [(Suppressions.sorted_ofText text).mem_namesAt, hnamed, Suppressions.ofText_gives,
    hlocation, locate_line]
  -- of the place of the issue, only the number of its line matters from here on
  generalize ((Utf8.ofString text).take
    (clampOffset (Utf8.ofString text).length i.start)).count newline = row
  constructor
  · rintro ⟨n, ⟨line, hrow, before, after, d, htext, hspells, hk, hn⟩, hanswers⟩
    obtain rfl : line = row + 1 := by omega
    exact ⟨before, after, d, htext, hspells, ⟨n, hn, hanswers⟩, Directive.target_eq_iff.mp hk⟩
  · rintro ⟨before, after, d, htext, hspells, ⟨n, hn, hanswers⟩, hrow⟩
    exact ⟨n, ⟨row + 1, by omega, before, after, d, htext, hspells,
      Directive.target_eq_iff.mpr hrow, hn⟩, hanswers⟩

theorem mem_fullName (p : RuleProfile) : '/' ∈ p.fullName.toList := by
  have hchars : p.fullName.toList = p.group.toList ++ '/' :: p.name.toList := by
    rw [RuleProfile.fullName, String.toList_append, String.toList_append, List.append_assoc]
    rfl
  rw [hchars]
  exact List.mem_append_right _ List.mem_cons_self

/-- **Suppression comments mean exactly what their grammar says.** An issue over a range of the text
comes out disabled exactly if a comment of the text silences it, and is left as it is otherwise. No
outcome depends on whether the text is searched for the word of a directive first. -/
theorem silence_by_grammar (text : String) (issues : List Issue) (k : Nat) (p : RuleProfile)
    (c : RuleConfig) (path : Option String) (parsed : Except Fault Parsed) (start stop : Int)
    (message : String) (correctable : Option Bool) (remedy : Option Remedy) {i : Issue}
    (hi : i = Rule.issueAt p c (View.ofText path text parsed) start stop message correctable remedy)
    (hk : issues[k]? = some i) :
    (∃ j, (silence text issues)[k]? = some j ∧ (j = i ∨ j = i.withStatus .disabled) ∧
      (j.status = .disabled ↔ i.SilencedIn text)) ∧
    ∀ i' : Issue, (Suppressions.inForce text).silences i' = (Suppressions.ofText text).silences i' := by
  refine ⟨?_, Suppressions.silences_inForce text⟩
  have hlocation : i.location = locate (Utf8.ofString text) i.start := by
    rw [hi]
    rfl
  have hreported : i.status = .reported := by
    rw [hi]
    rfl
  have hslash : '/' ∈ i.rule.toList := by
    rw [hi]
    exact mem_fullName p
  have hiff := silences_iff text hlocation hslash
  refine ⟨if (Suppressions.inForce text).silences i then i.withStatus .disabled else i, ?_, ?_⟩
  · rw [silence, List.getElem?_map, hk]
    rfl
  · rw [← hiff]
    cases (Suppressions.inForce text).silences i with
    | true => exact ⟨.inr rfl, fun _ => rfl, fun _ => rfl⟩
    | false =>
      -- an issue that is not silenced is reported, as it was built
      refine ⟨.inl rfl, fun hstatus => ?_, fun h => (by cases h)⟩
      have hdisabled : i.status = .disabled := hstatus
      rw [hreported] at hdisabled
      cases hdisabled

/-- The issue that a rule of the group `Test` has with the letter b of a text in two lines, after a
comment for the next line whose second `#` begins a directive. -/
def Issue.onNextLine : Issue :=
  Rule.issueAt { name := "ReportB", group := "Test", label := "WordRule" } {}
    (View.ofText none "# é #autolint:disable-next-line A/B ,Test!\nb" (.error .noTree)) 44 45

/-- A comment with two names, of which the second is the group, silences an issue on the next
line. -/
theorem onNextLine_silenced :
    (silence "# é #autolint:disable-next-line A/B ,Test!\nb" [Issue.onNextLine]).map (·.status)
        = [.disabled] ∧
      Issue.onNextLine.SilencedIn "# é #autolint:disable-next-line A/B ,Test!\nb" := by
  have hstatus : (silence "# é #autolint:disable-next-line A/B ,Test!\nb" [Issue.onNextLine]).map
      (·.status) = [.disabled] := by decide +kernel
  obtain ⟨⟨j, hj, -, hiff⟩, -⟩ := silence_by_grammar
    "# é #autolint:disable-next-line A/B ,Test!\nb" [Issue.onNextLine] 0 _ _ none _ 44 45 "" none
    none rfl rfl
  -- the issue is disabled, so the grammar must have a comment for it
  refine ⟨hstatus, hiff.mp ?_⟩
  have hget := congrArg (·[0]?) hstatus
  simp only [List.getElem?_map, hj] at hget
  exact Option.some.inj hget

end Lintel
