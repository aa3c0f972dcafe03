import Lintel.Path
import Lintel.Proofs.Text.Split
import Mathlib.Data.List.Basic
import Mathlib.Data.List.TakeWhile

/-!
# The places that paths name

Without links, where a path leads to can be told from the path alone: its components are walked from
the root, `..` goes up, and everything else goes down or stays. `Path.place` is the place that an
absolute path names in this way, as the list of names that lead there. It does not matter here
whether anything lies at the place.

Three ways to spell a place are shown to agree with it. The names of a normalised path are those of
its place (`names_normalize`). The relative path from a directory to a file, seen from the
directory, names the place of the file (`place_join_relative`). And a path that is split at its last
slash names what its last component leads to from the place of the first part (`place_split`).
-/

namespace Lintel

namespace Path

/-! ### Components -/

theorem components_append (a b : String) :
    components (a ++ "/" ++ b) = components a ++ components b := by
  have hchars : (a ++ "/" ++ b).toList = a.toList ++ '/' :: b.toList := by
    rw [String.toList_append, String.toList_append, List.append_assoc]
    rfl
  rw [components, splitText, hchars, splitOnChar_append, List.map_append]
  rfl

theorem components_of_not_mem {n : String} (h : '/' ∉ n.toList) : components n = [n] := by
  rw [components, splitText, splitOnChar_of_not_mem h, List.map_singleton, String.ofList_toList]

theorem not_mem_of_mem_components {p n : String} (h : n ∈ components p) : '/' ∉ n.toList := by
  obtain ⟨part, hpart, rfl⟩ := List.mem_map.mp h
  rw [String.toList_ofList]
  exact not_mem_of_mem_splitOnChar hpart

theorem components_ne_nil (p : String) : components p ≠ [] := by
  intro h
  exact splitOnChar_ne_nil '/' p.toList (List.map_eq_nil_iff.mp h)

theorem components_ofComponents {cs : List String} (hne : cs ≠ [])
    (h : ∀ c ∈ cs, '/' ∉ c.toList) : components (ofComponents cs) = cs := by
  induction cs with
  | nil => exact absurd rfl hne
  | cons c cs ih =>
    have hc := components_of_not_mem (h c List.mem_cons_self)
    -- no slash is added behind the last component
    by_cases hcs : cs = []
    · rw [hcs, ofComponents, String.intercalate_singleton, hc]
    · rw [ofComponents, String.intercalate_cons_of_ne_nil hcs, components_append, hc]
      change c :: components (ofComponents cs) = _
      rw [ih hcs fun c hc => h c (List.mem_cons_of_mem _ hc)]

/-! ### Walking -/

/-- A component that is the name of something. -/
structure IsName (n : String) : Prop where
  ne_empty : n ≠ ""
  ne_here : n ≠ "."
  ne_up : n ≠ ".."
  not_mem : '/' ∉ n.toList

/-- Where a component leads to from a place. -/
def enter (place : List String) (n : String) : List String :=
  if n = "" || n = "." then place
  else if n = ".." then place.dropLast
  else place ++ [n]

/-- Where components lead to from a place. -/
def walk (place cs : List String) : List String :=
  cs.foldl enter place

/-- The place that an absolute path names. -/
def place (p : String) : List String :=
  walk [] (components p)

@[simp] theorem enter_empty (place : List String) : enter place "" = place := rfl

@[simp] theorem enter_here (place : List String) : enter place "." = place := rfl

@[simp] theorem enter_up (place : List String) : enter place ".." = place.dropLast := rfl

theorem enter_name {n : String} (h : IsName n) (place : List String) :
    enter place n = place ++ [n] := by
  simp [enter, h.ne_empty, h.ne_here, h.ne_up]

theorem walk_append (place as bs : List String) :
    walk place (as ++ bs) = walk (walk place as) bs :=
  List.foldl_append

theorem walk_names {ns : List String} (h : ∀ n ∈ ns, IsName n) (place : List String) :
    walk place ns = place ++ ns := by
  induction ns generalizing place with
  | nil => exact (List.append_nil place).symm
  | cons n ns ih =>
    have hn := enter_name (h n List.mem_cons_self) place
    change walk (enter place n) ns = _
    rw [hn, ih (fun m hm => h m (List.mem_cons_of_mem _ hm)), List.append_assoc]
    rfl

/-- Going up as often as there are names. -/
theorem walk_up (before names : List String) :
    walk (before ++ names) (List.replicate names.length "..") = before := by
  -- On how many names there are, because going up takes the last one away.
  generalize hn : names.length = n
  induction n generalizing names with
  | zero =>
    rw [List.length_eq_zero_iff.mp hn]
    exact List.append_nil before
  | succ n ih =>
    have hne : names ≠ [] := by
      rintro rfl
      cases hn
    have hlength : names.dropLast.length = n := by
      rw [List.length_dropLast, hn]
      rfl
    change walk (enter (before ++ names) "..") _ = _
    rw [enter_up, List.dropLast_append_of_ne_nil hne]
    exact ih _ hlength

/-- **What leads from one place to another leads there.** -/
theorem walk_between {as bs : List String} (h : ∀ n ∈ bs, IsName n) (before : List String) :
    walk (before ++ as) (between as bs) = before ++ bs := by
  -- along the common front; where the names part, up as often as there are names left
  fun_induction between as bs generalizing before with
  | case1 as b bs ih =>
    have hih := ih (fun n hn => h n (List.mem_cons_of_mem _ hn)) (before ++ [b])
    rw [List.append_assoc, List.append_assoc] at hih
    exact hih
  | case2 a as b bs hab =>
    rw [walk_append, walk_up, walk_names h]
  | case3 as bs hne =>
    rw [walk_append, walk_up, walk_names h]

theorem isName_walk {place cs : List String} (hplace : ∀ n ∈ place, IsName n)
    (hcs : ∀ c ∈ cs, '/' ∉ c.toList) : ∀ n ∈ walk place cs, IsName n := by
  induction cs generalizing place with
  | nil => exact hplace
  | cons c cs ih =>
    refine ih ?_ fun c' hc' => hcs c' (List.mem_cons_of_mem _ hc')
    intro n hn
    unfold enter at hn
    split at hn
    · exact hplace n hn
    · -- a component that neither stays nor goes up is a name
      next hstay =>
      rw [Bool.or_eq_true, decide_eq_true_eq, decide_eq_true_eq, not_or] at hstay
      split at hn
      · exact hplace n ((List.dropLast_sublist place).subset hn)
      · next hup =>
        rcases List.mem_append.mp hn with hn | hn
        · exact hplace n hn
        · rw [List.mem_singleton.mp hn]
          exact ⟨hstay.1, hstay.2, hup, hcs c List.mem_cons_self⟩

theorem isName_place (p : String) : ∀ n ∈ place p, IsName n :=
  isName_walk (fun _ hn => absurd hn List.not_mem_nil) fun _ hc => not_mem_of_mem_components hc

/-! ### Normalised paths -/

theorem foldl_pushComponent {cs done : List String} (h : ".." ∉ done) :
    (cs.foldl (pushComponent true) done).reverse = walk done.reverse cs := by
  induction cs generalizing done with
  | nil => rfl
  | cons c cs ih =>
    -- on a path from the root, what is kept never goes up
    have hpush : ".." ∉ pushComponent true done c ∧
        (pushComponent true done c).reverse = enter done.reverse c := by
      unfold pushComponent enter
      split
      · exact ⟨h, rfl⟩
      · split
        · -- the component before is taken back, if there is one
          cases done with
          | nil => exact ⟨h, rfl⟩
          | cons last before =>
            rw [List.mem_cons, not_or] at h
            simp only [if_neg (Ne.symm h.1), List.reverse_cons, List.dropLast_concat]
            exact ⟨h.2, trivial⟩
        · next hc =>
          rw [List.mem_cons, not_or, List.reverse_cons]
          exact ⟨⟨Ne.symm hc, h⟩, rfl⟩
    rw [List.foldl_cons, ih hpush.1, hpush.2]
    rfl

theorem names_ofComponents {cs : List String} (h : ∀ c ∈ cs, IsName c) :
    names (ofComponents cs) = cs := by
  by_cases hcs : cs = []
  · rw [hcs]
    decide
  · rw [names, components_ofComponents hcs fun c hc => (h c hc).not_mem]
    refine List.filter_eq_self.mpr fun c hc => ?_
    exact decide_eq_true (h c hc).ne_empty

theorem names_slashes (k : Nat) (p : String) :
    names (String.ofList (List.replicate k '/') ++ p) = names p := by
  induction k with
  | zero =>
    change names ("" ++ p) = _
    rw [String.empty_append]
  | succ k ih =>
    -- a slash in front cuts off an empty component, which is no name
    have hcut : String.ofList (List.replicate (k + 1) '/') ++ p
        = "" ++ "/" ++ (String.ofList (List.replicate k '/') ++ p) := by
      rw [List.replicate_succ, String.empty_append, ← String.append_assoc]
      congr 1
      exact String.ext (by simp)
    rw [hcut, names, components_append, List.filter_append]
    exact ih

/-- The characters of an absolute path. -/
theorem exists_of_isAbsolute {p : String} (h : isAbsolute p = true) :
    ∃ cs, p.toList = '/' :: cs :=
  List.head?_eq_some_iff.mp (beq_iff_eq.mp h)

theorem isEmpty_of_isAbsolute {p : String} (h : isAbsolute p = true) : p.isEmpty = false := by
  obtain ⟨cs, hcs⟩ := exists_of_isAbsolute h
  cases hp : p.isEmpty with
  | false => rfl
  | true =>
    rw [String.isEmpty_iff.mp hp] at hcs
    cases hcs

/-- An absolute path keeps a slash when it is normalised. -/
theorem exists_leadingSlashes {p : String} (h : isAbsolute p = true) :
    ∃ k, leadingSlashes p = k + 1 := by
  obtain ⟨cs, hcs⟩ := exists_of_isAbsolute h
  unfold leadingSlashes
  -- Exactly two slashes are kept as two; one, or three and more, count as one.
  split
  · exact ⟨0, rfl⟩
  · exact ⟨1, rfl⟩
  · exact ⟨0, rfl⟩
  · next hno => exact absurd hcs (hno cs)

/-- The normalised form of a path from the root: slashes, and then the names of its place. -/
theorem normalize_of_isAbsolute {p : String} (h : isAbsolute p = true) : normalize p
    = String.ofList (List.replicate (leadingSlashes p) '/') ++ ofComponents (place p) := by
  have hcs : ((components p).foldl (pushComponent true) []).reverse = place p :=
    foldl_pushComponent List.not_mem_nil
  obtain ⟨k, hk⟩ := exists_leadingSlashes h
  have hempty := isEmpty_of_isAbsolute h
  -- what is put together starts with a slash again
  have htext : ∀ q, (String.ofList (List.replicate (k + 1) '/') ++ q).isEmpty = false := by
    intro q
    refine isEmpty_of_isAbsolute ?_
    unfold isAbsolute
    rw [String.toList_append, String.toList_ofList]
    rfl
  unfold normalize
  simp only [hempty, hk, htext, Bool.false_eq_true, if_false]
  change _ ++ ofComponents ((components p).foldl (pushComponent true) []).reverse = _
  rw [hcs]

/-- **The names of a normalised path are those of its place.** -/
theorem names_normalize {p : String} (h : isAbsolute p = true) : names (normalize p) = place p := by
  rw [normalize_of_isAbsolute h, names_slashes, names_ofComponents (isName_place p)]

/-! ### Paths seen from a directory -/

theorem isAbsolute_append {a : String} (h : isAbsolute a = true) (b : String) :
    isAbsolute (a ++ b) = true := by
  obtain ⟨cs, hcs⟩ := exists_of_isAbsolute h
  unfold isAbsolute
  rw [String.toList_append, hcs]
  rfl

theorem join_of_isAbsolute (a : String) {b : String} (h : isAbsolute b = true) : join a b = b :=
  if_pos h

theorem isAbsolute_join {a : String} (h : isAbsolute a = true) (b : String) :
    isAbsolute (join a b) = true := by
  unfold join
  split
  · next hb => exact hb
  · split
    · exact isAbsolute_append h b
    · exact isAbsolute_append (isAbsolute_append h "/") b

theorem absolute_eq (cwd p : String) : absolute cwd p = normalize (join cwd p) := by
  unfold absolute
  split
  · next hp => rw [join_of_isAbsolute cwd hp]
  · rfl

/-- The components of a path as seen from a directory: some that lead to the directory, and those of
the path. -/
theorem components_join {a b : String} (ha : isAbsolute a = true) (hb : isAbsolute b = false) :
    ∃ cs, components (join a b) = cs ++ components b ∧ walk [] cs = place a := by
  unfold join
  rw [hb, if_neg Bool.false_ne_true, isEmpty_of_isAbsolute ha, Bool.false_or]
  split
  · next hlast =>
    -- the directory ends with a slash of its own
    obtain ⟨cs, hcs⟩ := List.getLast?_eq_some_iff.mp (beq_iff_eq.mp hlast)
    have hcut : a = String.ofList cs ++ "/" := by
      refine String.toList_inj.mp ?_
      rw [hcs, String.toList_append, String.toList_ofList]
      rfl
    refine ⟨components (String.ofList cs), by rw [hcut, components_append], ?_⟩
    have hplace : components a = components (String.ofList cs) ++ [""] := by
      have hend := components_append (String.ofList cs) ""
      rw [String.append_empty, ← hcut] at hend
      exact hend
    rw [place, hplace, walk_append]
    rfl
  · exact ⟨components a, components_append a b, rfl⟩

theorem place_join {a b : String} (ha : isAbsolute a = true) (hb : isAbsolute b = false) :
    place (join a b) = walk (place a) (components b) := by
  obtain ⟨cs, hcs, hwalk⟩ := components_join ha hb
  rw [place, hcs, walk_append, hwalk]

theorem names_absolute {cwd : String} (h : isAbsolute cwd = true) (p : String) :
    names (absolute cwd p) = place (join cwd p) := by
  rw [absolute_eq, names_normalize (isAbsolute_join h p)]

/-! ### Relative paths -/

theorem walk_between_place (as : List String) (p : String) :
    walk as (between as (place p)) = place p :=
  walk_between (isName_place p) []

theorem mem_between {as bs : List String} {c : String} (h : c ∈ between as bs) :
    c = ".." ∨ c ∈ bs := by
  fun_induction between as bs with
  | case1 as b bs ih =>
    -- a common name is passed over
    rcases ih h with h | h
    · exact .inl h
    · exact .inr (List.mem_cons_of_mem _ h)
  | case2 a as b bs hab =>
    rcases List.mem_append.mp h with h | h
    · exact .inl (List.eq_of_mem_replicate h)
    · exact .inr h
  | case3 as bs hne =>
    rcases List.mem_append.mp h with h | h
    · exact .inl (List.eq_of_mem_replicate h)
    · exact .inr h

/-- The last name, unless the way only goes up. -/
theorem getLast?_between {as bs : List String} (h : ¬ bs <+: as) :
    (between as bs).getLast? = bs.getLast? := by
  fun_induction between as bs with
  -- a common name is passed over, unless it is the last one there is
  | case1 as b bs ih =>
    have hbs : ¬ bs <+: as := fun hp => h (List.cons_prefix_cons.mpr ⟨rfl, hp⟩)
    have hne : bs ≠ [] := by
      rintro rfl
      exact hbs List.nil_prefix
    rw [ih hbs, List.getLast?_cons_of_ne_nil hne]
  | case2 a as b bs hab =>
    rw [List.getLast?_append_of_ne_nil _ (List.cons_ne_nil b bs)]
  | case3 as bs hne =>
    have hbs : bs ≠ [] := by
      rintro rfl
      exact h List.nil_prefix
    rw [List.getLast?_append_of_ne_nil _ hbs]

section Relative

variable {cwd : String} (hcwd : isAbsolute cwd = true) (p : String)
include hcwd

/-- The relative path from the working directory, by its components. -/
theorem components_relative :
    components (relative cwd p cwd) = between (place cwd) (place (join cwd p)) ∨
      between (place cwd) (place (join cwd p)) = [] ∧ components (relative cwd p cwd) = ["."] := by
  have hdir : names (absolute cwd cwd) = place cwd := by
    rw [names_absolute hcwd, join_of_isAbsolute cwd hcwd]
  unfold relative
  rw [hdir, names_absolute hcwd]
  split
  · next hnil => exact .inr ⟨hnil, by decide⟩
  · -- every component is a name or leads up, and neither holds a slash
    next cs hne =>
    refine .inl (components_ofComponents (fun hnil => hne hnil) fun c hc => ?_)
    rcases mem_between hc with rfl | hc
    · decide
    · exact (isName_place _ c hc).not_mem

theorem isAbsolute_relative : isAbsolute (relative cwd p cwd) = false := by
  cases habs : isAbsolute (relative cwd p cwd) with
  | false => rfl
  | true =>
    -- the first component of an absolute path is empty, and none of these is
    obtain ⟨cs, hcs⟩ : ∃ cs, components (relative cwd p cwd) = "" :: cs := by
      obtain ⟨cs, hp⟩ := exists_of_isAbsolute habs
      rw [components, splitText, hp, splitOnChar, if_pos rfl]
      exact ⟨_, rfl⟩
    rcases components_relative hcwd p with heq | ⟨-, heq⟩
    · have hmem : "" ∈ between (place cwd) (place (join cwd p)) := by
        rw [← heq, hcs]
        exact List.mem_cons_self
      rcases mem_between hmem with h | h
      · exact absurd h (by decide)
      · exact absurd rfl (isName_place _ _ h).ne_empty
    · rw [hcs] at heq
      exact absurd (List.cons.inj heq).1 (by decide)

/-- **The relative path to a file names the place of the file**, seen from the directory. -/
theorem place_join_relative : place (join cwd (relative cwd p cwd)) = place (join cwd p) := by
  have hwalk := walk_between_place (place cwd) (join cwd p)
  rw [place_join hcwd (isAbsolute_relative hcwd p)]
  -- The path between two equal places is spelled as a dot, which the walk ignores.
  rcases components_relative hcwd p with heq | ⟨hnil, heq⟩
  · rw [heq, hwalk]
  · rw [hnil] at hwalk
    rw [heq]
    exact hwalk

/-- The last component of such a path is the name of the file, unless the file lies above the
directory. -/
theorem getLast?_join_relative (h : ¬ place (join cwd p) <+: place cwd) :
    (components (join cwd (relative cwd p cwd))).getLast? = (place (join cwd p)).getLast? := by
  obtain ⟨cs, hcs, -⟩ := components_join hcwd (isAbsolute_relative hcwd p)
  rw [hcs, List.getLast?_append_of_ne_nil _ (components_ne_nil _)]
  rcases components_relative hcwd p with heq | ⟨hnil, -⟩
  · rw [heq, getLast?_between h]
  · -- nowhere to go: the file would be the directory itself
    have hwalk := walk_between_place (place cwd) (join cwd p)
    rw [hnil] at hwalk
    refine absurd ?_ h
    rw [← hwalk]
    exact List.prefix_rfl

end Relative

/-! ### Splitting -/

theorem place_append_slash (p : String) : place (p ++ "/") = place p := by
  have hcut : components (p ++ "/") = components p ++ [""] := by
    have hend := components_append p ""
    rwa [String.append_empty] at hend
  rw [place, hcut, walk_append]
  rfl

theorem ofList_append_slash (cs : List Char) :
    String.ofList (cs ++ ['/']) = String.ofList cs ++ "/" := by
  refine String.toList_inj.mp ?_
  rw [String.toList_append, String.toList_ofList, String.toList_ofList]
  rfl

theorem place_stripped (cs : List Char) :
    place (String.ofList (cs.dropWhile (· = '/')).reverse) = place (String.ofList cs.reverse) := by
  -- the characters are given in reverse, so the slashes come first
  induction cs with
  | nil => rfl
  | cons c cs ih =>
    rw [List.dropWhile_cons]
    split
    · next hc =>
      have hc : c = '/' := by simpa using hc
      rw [ih, hc, List.reverse_cons, ofList_append_slash, place_append_slash]
    · rfl

/-- What is left after stripping begins in the same way, if there is anything but slashes. -/
theorem head?_stripped {cs : List Char} (h : cs.all (· = '/') = false) :
    (cs.reverse.dropWhile (· = '/')).reverse.head? = cs.head? := by
  have hprefix : (cs.reverse.dropWhile (· = '/')).reverse <+: cs :=
    List.reverse_suffix.mp (by rw [List.reverse_reverse]; exact List.dropWhile_suffix _)
  cases hstripped : (cs.reverse.dropWhile (· = '/')).reverse with
  -- nothing is left only if there was nothing but slashes
  | nil =>
    have hslashes := List.dropWhile_eq_nil_iff.mp (List.reverse_eq_nil_iff.mp hstripped)
    have hall : cs.all (· = '/') = true :=
      List.all_eq_true.mpr fun c hc => hslashes c (List.mem_reverse.mpr hc)
    rw [hall] at h
    cases h
  | cons c rest =>
    rw [hstripped] at hprefix
    obtain ⟨more, rfl⟩ := hprefix
    rfl

/-- The characters of a path up to its last slash, and those after it. -/
theorem exists_last_slash {cs : List Char} (h : '/' ∈ cs) :
    ∃ before, cs = before ++ '/' :: (cs.reverse.takeWhile (· ≠ '/')).reverse := by
  have hparts : cs.reverse.takeWhile (· ≠ '/') ++ cs.reverse.dropWhile (· ≠ '/') = cs.reverse :=
    List.takeWhile_append_dropWhile
  cases hrest : cs.reverse.dropWhile (· ≠ '/') with
  | nil =>
    -- there is a slash to stop at
    have hslash := List.dropWhile_eq_nil_iff.mp hrest '/' (List.mem_reverse.mpr h)
    exact absurd hslash (by decide)
  | cons c rest =>
    have hc : c = '/' := by
      have hhead := List.head?_dropWhile_not (· ≠ '/') cs.reverse
      rw [hrest] at hhead
      simpa using hhead
    refine ⟨rest.reverse, ?_⟩
    have hrev := congrArg List.reverse hparts
    rw [List.reverse_reverse, List.reverse_append, hrest, hc, List.reverse_cons,
      List.append_assoc] at hrev
    exact hrev.symm

/-- What splitting does, in characters: the first part ends with the last slash of the path, or was
stripped of all slashes at its end. -/
theorem exists_split {p : String} (h : '/' ∈ p.toList) :
    ∃ before tail, p.toList = before ++ '/' :: tail ∧ '/' ∉ tail ∧
      (split p).2 = String.ofList tail ∧
      ((split p).1 = String.ofList (before ++ ['/']) ∨
        (split p).1 = String.ofList ((before ++ ['/']).reverse.dropWhile (· = '/')).reverse ∧
          (before ++ ['/']).all (· = '/') = false) := by
  obtain ⟨before, hp⟩ := exists_last_slash h
  generalize htail : (p.toList.reverse.takeWhile (· ≠ '/')).reverse = tail at hp
  -- What stands before the tail is cut off by its length.
  have hhead : p.toList.take (p.toList.length - tail.length) = before ++ ['/'] := by
    have hcut : p.toList = (before ++ ['/']) ++ tail := by
      rw [List.append_assoc]
      exact hp
    rw [hcut, List.length_append, Nat.add_sub_cancel, List.take_left]
  have hslash : '/' ∉ tail := by
    rw [← htail, List.mem_reverse]
    intro hmem
    exact absurd (List.all_eq_true.mp List.all_takeWhile _ hmem) (by decide)
  refine ⟨before, tail, hp, hslash, ?_, ?_⟩
  · unfold split
    simp only [htail]
  · unfold split
    simp only [htail, hhead]
    split
    · exact .inl rfl
    · next hall => exact .inr ⟨rfl, by simpa using hall⟩

theorem isAbsolute_split {p : String} (h : isAbsolute p = true) :
    isAbsolute (split p).1 = true := by
  have hhead : p.toList.head? = some '/' := beq_iff_eq.mp h
  obtain ⟨before, tail, hp, -, -, hfolder⟩ := exists_split (List.mem_of_mem_head? hhead)
  have hfirst : (before ++ ['/']).head? = some '/' := by
    rw [hp] at hhead
    cases before with
    | nil => rfl
    | cons c before => exact hhead
  refine beq_iff_eq.mpr ?_
  -- the folder is stripped of the slashes at its end, or has nothing but slashes
  rcases hfolder with hfst | ⟨hfst, hall⟩
  · rw [hfst, String.toList_ofList, hfirst]
  · rw [hfst, String.toList_ofList, head?_stripped hall, hfirst]

/-- **A path that is split at its last slash** names what its last component leads to from the place
of the first part. -/
theorem place_split {p : String} (h : isAbsolute p = true) :
    place p = enter (place (split p).1) (split p).2 ∧
      (components p).getLast? = some (split p).2 := by
  obtain ⟨before, tail, hp, htail, hname, hfolder⟩ :=
    exists_split (List.mem_of_mem_head? (beq_iff_eq.mp h))
  have hcut : p = String.ofList before ++ "/" ++ String.ofList tail := by
    refine String.toList_inj.mp ?_
    simp [hp]
  have hlast : components (String.ofList tail) = [(split p).2] := by
    rw [hname]
    refine components_of_not_mem ?_
    rw [String.toList_ofList]
    exact htail
  have hcomponents : components p = components (String.ofList before) ++ [(split p).2] := by
    have happend := components_append (String.ofList before) (String.ofList tail)
    rwa [← hcut, hlast] at happend
  -- stripped or not, the first part leads to the same place
  have hplace : place (split p).1 = place (String.ofList before) := by
    rw [← place_append_slash (String.ofList before), ← ofList_append_slash]
    rcases hfolder with hfst | ⟨hfst, -⟩
    · rw [hfst]
    · rw [hfst, place_stripped, List.reverse_reverse]
  constructor
  · rw [hplace, place, hcomponents, walk_append]
    rfl
  · rw [hcomponents, List.getLast?_concat]

end Path

end Lintel
