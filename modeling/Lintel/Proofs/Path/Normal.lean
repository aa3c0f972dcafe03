import Lintel.Proofs.Path.Place

/-!
# Normalised paths

A path that is normalised has no component that could be left out. From the root that is a slash or
two and the names of the place it leads to (`normalize_of_isAbsolute`). A relative path that never
goes up **leads down**: it is `.`, which leads nowhere, or it is a list of names with slashes
between them (`LeadsDown.cases`).

Seen from a directory, a path that leads down names a place below the directory. The absolute form
of the path ends with its names (`absolute_join`), and the relative path from the directory to that
place is made of its names, too (`relative_join`).
-/

namespace Lintel

namespace Path

/-! ### Names with slashes between them -/

/-- The relative path that some names make. -/
def spell (ns : List String) : String :=
  if ns = [] then "." else ofComponents ns

/-- What is kept of the components of a path are names, and the steps up in front of them. -/
theorem isName_of_mem_foldl {rooted : Bool} {done cs : List String}
    (hdone : ∀ c ∈ done, IsName c ∨ c = "..") (hcs : ∀ c ∈ cs, '/' ∉ c.toList) :
    ∀ c ∈ cs.foldl (pushComponent rooted) done, IsName c ∨ c = ".." := by
  induction cs generalizing done with
  | nil => exact hdone
  | cons c cs ih =>
    refine ih ?_ fun c' hc' => hcs c' (List.mem_cons_of_mem _ hc')
    intro n hn
    unfold pushComponent at hn
    split at hn
    · -- An empty component or a dot is dropped.
      exact hdone n hn
    · next hstay =>
      rw [Bool.or_eq_true, decide_eq_true_eq, decide_eq_true_eq, not_or] at hstay
      split at hn
      · -- a step up takes a name back, or is kept
        split at hn
        · split at hn
          · cases hn
          · exact .inr (List.mem_singleton.mp hn)
        · next last before =>
          split at hn
          · next hlast =>
            rcases List.mem_cons.mp hn with rfl | hn
            · exact .inr rfl
            · exact hdone n (hlast ▸ hn)
          · exact hdone n (List.mem_cons_of_mem _ hn)
      · next hup =>
        rcases List.mem_cons.mp hn with rfl | hn
        · exact .inl ⟨hstay.1, hstay.2, hup, hcs _ List.mem_cons_self⟩
        · exact hdone n hn

/-! ### Paths that lead down -/

/-- A normalised relative path that never goes up. -/
structure LeadsDown (p : String) : Prop where
  normal : normalize p = p
  relative : isAbsolute p = false
  never_up : ".." ∉ components p

namespace LeadsDown

variable {p : String}

/-- A path that leads down starts with a character other than a slash. -/
theorem exists_head (h : LeadsDown p) : ∃ c cs, p.toList = c :: cs ∧ c ≠ '/' := by
  have hrelative := h.relative
  unfold isAbsolute at hrelative
  cases hp : p.toList with
  | nil =>
    -- the normalised form of the empty path is another one
    have hnormal := h.normal
    rw [String.toList_inj.mp (hp.trans String.toList_empty.symm)] at hnormal
    exact absurd hnormal (by decide)
  | cons c cs =>
    rw [hp] at hrelative
    exact ⟨c, cs, rfl, by simpa using hrelative⟩

theorem leadingSlashes (h : LeadsDown p) : leadingSlashes p = 0 := by
  obtain ⟨c, cs, hp, hc⟩ := h.exists_head
  unfold Path.leadingSlashes
  rw [hp]
  split <;> simp_all

/-- **A path that leads down** is `.`, or names with slashes between them. -/
theorem cases (h : LeadsDown p) :
    p = "." ∨ ∃ ns, ns ≠ [] ∧ (∀ n ∈ ns, IsName n) ∧ p = ofComponents ns := by
  have hnormal := h.normal
  unfold normalize at hnormal
  rw [h.leadingSlashes] at hnormal
  split at hnormal
  · exact .inl hnormal.symm
  · simp only at hnormal
    split at hnormal
    · exact .inl hnormal.symm
    · next hne =>
      right
      let ns := ((components p).foldl (pushComponent false) []).reverse
      have hp : p = ofComponents ns := hnormal.symm.trans String.empty_append
      have hns : ns ≠ [] := by
        intro hnil
        refine hne ?_
        change ("" ++ ofComponents ns).isEmpty = true
        rw [hnil]
        decide
      have hkept : ∀ n ∈ ns, IsName n ∨ n = ".." := fun n hn =>
        isName_of_mem_foldl (fun _ hc => absurd hc List.not_mem_nil)
          (fun _ hc => not_mem_of_mem_components hc) n (List.mem_reverse.mp hn)
      -- Spelled and read back, the components are the same.
      have hcomponents : components p = ns := by
        rw [hp]
        refine components_ofComponents hns fun n hn => ?_
        rcases hkept n hn with hname | rfl
        · exact hname.not_mem
        · decide
      -- no step up is among them
      refine ⟨ns, hns, fun n hn => ?_, hp⟩
      rcases hkept n hn with hname | rfl
      · exact hname
      · exact absurd (hcomponents ▸ hn) h.never_up

theorem exists_names (h : LeadsDown p) :
    ∃ ns, p = spell ns ∧ ∀ place, walk place (components p) = place ++ ns := by
  rcases h.cases with rfl | ⟨ns, hne, hnames, rfl⟩
  · refine ⟨[], rfl, fun place => ?_⟩
    -- The one path with no name leads nowhere.
    have hhere : components "." = ["."] := by decide
    rw [hhere, List.append_nil]
    rfl
  · refine ⟨ns, by rw [spell, if_neg hne], fun place => ?_⟩
    rw [components_ofComponents hne fun n hn => (hnames n hn).not_mem, walk_names hnames]

end LeadsDown

/-! ### Absolute forms -/

theorem walk_filter (place cs : List String) : walk place (cs.filter (· ≠ "")) = walk place cs := by
  induction cs generalizing place with
  | nil => rfl
  | cons c cs ih =>
    -- an empty component stays where it is
    by_cases hc : c = ""
    · rw [hc, List.filter_cons, if_neg (by decide)]
      exact ih place
    · have hkeep : decide (c ≠ "") = true := decide_eq_true hc
      rw [List.filter_cons, if_pos hkeep]
      exact ih (enter place c)

theorem absolute_of_isAbsolute (cwd : String) {p : String} (h : isAbsolute p = true) :
    absolute cwd p = normalize p :=
  congrArg normalize (if_pos h)

theorem isAbsolute_normalize {p : String} (h : isAbsolute p = true) :
    isAbsolute (normalize p) = true := by
  obtain ⟨k, hk⟩ := exists_leadingSlashes h
  rw [normalize_of_isAbsolute h, hk]
  unfold isAbsolute
  rw [String.toList_append, String.toList_ofList]
  rfl

/-- Normalising a path does not change where it leads to. -/
theorem place_normalize {p : String} (h : isAbsolute p = true) : place (normalize p) = place p :=
  calc place (normalize p) = walk [] (names (normalize p)) := (walk_filter [] _).symm
    _ = walk [] (place p) := by rw [names_normalize h]
    _ = place p := walk_names (isName_place p) []

theorem names_absolute_absolute (cwd : String) {p : String} (h : isAbsolute p = true) :
    names (absolute cwd (absolute cwd p)) = place p :=
  calc names (absolute cwd (absolute cwd p))
    _ = names (absolute cwd (normalize p)) :=
      congrArg (fun q => names (absolute cwd q)) (absolute_of_isAbsolute cwd h)
    _ = names (normalize (normalize p)) :=
      congrArg names (absolute_of_isAbsolute cwd (isAbsolute_normalize h))
    _ = place (normalize p) := names_normalize (isAbsolute_normalize h)
    _ = place p := place_normalize h

theorem between_append (as bs : List String) : between as (as ++ bs) = bs := by
  induction as with
  | nil => cases bs <;> rfl
  | cons a as ih => rw [List.cons_append, between, if_pos rfl, ih]

section Join

variable {root p : String} {ns : List String}

/-- **The absolute form of a path that leads down from a directory**: the names of the directory,
and then those the path leads through. -/
theorem absolute_join (cwd : String) (hroot : isAbsolute root = true) (hp : isAbsolute p = false)
    (hwalk : ∀ place, walk place (components p) = place ++ ns) : absolute cwd (join root p)
      = String.ofList (List.replicate (leadingSlashes (join root p)) '/')
        ++ ofComponents (place root ++ ns) := by
  have hjoin := isAbsolute_join hroot p
  rw [absolute_of_isAbsolute cwd hjoin, normalize_of_isAbsolute hjoin, place_join hroot hp, hwalk]

/-- **The relative path from the directory** to the end of such a path is made of these names. -/
theorem relative_join (cwd : String) (hroot : isAbsolute root = true) (hp : isAbsolute p = false)
    (hwalk : ∀ place, walk place (components p) = place ++ ns) :
    relative cwd (absolute cwd (join root p)) root = spell ns := by
  have hjoin := isAbsolute_join hroot p
  -- both places begin with that of the directory, which is left out of the way
  have hfrom : names (absolute cwd root) = place root := by
    rw [absolute_of_isAbsolute cwd hroot, names_normalize hroot]
  have hto : names (absolute cwd (absolute cwd (join root p))) = place root ++ ns := by
    rw [names_absolute_absolute cwd hjoin, place_join hroot hp, hwalk]
  unfold relative
  rw [hfrom, hto, between_append, spell]
  cases ns with
  | nil => rfl
  | cons n ns => rfl

end Join

end Path

end Lintel
