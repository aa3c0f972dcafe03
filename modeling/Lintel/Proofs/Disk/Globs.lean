import Lintel.Config.Load
import Lintel.Proofs.Ensures

/-!
# Globs that can be worked off

Asking for the names in a folder is a fault if the path of the folder holds the null character. A
glob may bring one in, since its parts become paths, and so may the names on a disk and the working
directory. If all of these are paths that can be asked for (`Path.Askable`), then so are all paths
that are put together from them, and working off the glob is no fault (`Disk.Askable.ensures_glob`).
So a selection of files is none either (`Disk.Askable.ensures_select`).
-/

namespace Lintel

abbrev Succeeds {α : Type} (good : α → Prop) (x : Except Fault α) : Prop :=
  Ensures (fun _ => False) good x

/-! ### Paths that can be asked for -/

namespace Path

/-- A text that can be asked for as the path of a folder. -/
def Askable (p : String) : Prop :=
  ∀ c ∈ p.toList, c ≠ '\x00'

instance (p : String) : Decidable (Askable p) :=
  List.decidableBAll (fun c => c ≠ '\x00') p.toList

theorem askable_empty : Askable "" := fun _ hc => absurd hc List.not_mem_nil

theorem Askable.append {a b : String} (ha : Askable a) (hb : Askable b) : Askable (a ++ b) := by
  intro c hc
  rw [String.toList_append, List.mem_append] at hc
  exact hc.elim (ha c) (hb c)

theorem Askable.of_subset {a : String} (ha : Askable a) {cs : List Char} (h : cs ⊆ a.toList) :
    Askable (String.ofList cs) := by
  intro c hc
  rw [String.toList_ofList] at hc
  exact ha c (h hc)

theorem Askable.join {a b : String} (ha : Askable a) (hb : Askable b) : Askable (join a b) := by
  unfold Path.join
  split
  · exact hb
  · split
    · exact ha.append hb
    · exact (ha.append (by decide +kernel)).append hb

theorem Askable.split {p : String} (h : Askable p) :
    Askable (split p).1 ∧ Askable (split p).2 := by
  unfold Path.split
  simp only
  -- both parts have only characters of the path
  refine ⟨h.of_subset ?_, h.of_subset fun c hc => ?_⟩
  · have htake := List.take_subset (p.toList.length
      - (p.toList.reverse.takeWhile (· ≠ '/')).reverse.length) p.toList
    split
    · exact htake
    · intro c hc
      have hc := (List.dropWhile_subset _) (List.mem_reverse.mp hc)
      exact htake (List.mem_reverse.mp hc)
  · have hc := (List.takeWhile_subset _) (List.mem_reverse.mp hc)
    exact List.mem_reverse.mp hc

end Path

namespace Disk

/-- All names on a disk can be asked for. -/
def Askable (d : Disk) : Prop := ∀ place ∈ d.places, ∀ n ∈ place, Path.Askable n

theorem askable_joinParts {a b : String} (ha : Path.Askable a) (hb : Path.Askable b) :
    Path.Askable (joinParts a b) := by
  unfold joinParts
  split
  · exact hb
  · split
    · exact ha
    · exact ha.join hb

theorem checkFolder_of_askable {folder : String} (h : Path.Askable folder) :
    checkFolder folder = .ok () := by
  unfold checkFolder
  rw [if_neg]
  rw [List.contains_iff_mem]
  exact fun hc => h _ hc rfl

/-! ### Names in folders -/

theorem mem_of_mem_below? {a p ns : List String} (h : below? a p = some ns) {n : String}
    (hn : n ∈ ns) : n ∈ p := by
  fun_induction below? a p with
  | case1 names =>
    cases h
    exact hn
  | case2 => cases h
  | case3 f fs ns ih => exact List.mem_cons_of_mem _ (ih h)
  | case4 => cases h

section Names

variable {d : Disk} (hd : d.Askable) {cwd : String}
include hd

theorem Askable.of_mem_list {folder n : String} (h : n ∈ d.list cwd folder) : Path.Askable n := by
  unfold list at h
  split at h
  · split at h
    · next place _ _ =>
      unfold namesIn at h
      rw [List.mem_eraseDups] at h
      -- a name in a folder is part of a place that is listed
      obtain ⟨p, hp, h⟩ := List.mem_filterMap.mp h
      obtain ⟨ns, hns, h⟩ := Option.bind_eq_some_iff.mp h
      exact hd p hp n (mem_of_mem_below? hns (List.mem_of_head? h))
    · cases h
  · cases h

theorem Askable.of_mem_listKind {onlyFolders : Bool} {folder n : String}
    (h : n ∈ d.listKind cwd onlyFolders folder) : Path.Askable n := by
  unfold listKind at h
  simp only at h
  split at h
  · exact hd.of_mem_list (List.mem_filter.mp h).1
  · exact hd.of_mem_list h

/-- What lies below a folder is put together from names on the disk. -/
theorem Askable.of_mem_listDeep {onlyFolders : Bool} {depth : Nat} {folder p : String}
    (h : p ∈ d.listDeep cwd onlyFolders depth folder) : Path.Askable p := by
  -- on the depth: what is found further down is put behind a name of this folder
  induction depth generalizing folder p with
  | zero => cases h
  | succ depth ih =>
    obtain ⟨n, hn, h⟩ := List.mem_flatMap.mp h
    have hname := hd.of_mem_listKind hn
    split at h
    · cases h
    · rcases List.mem_cons.mp h with rfl | h
      · exact hname
      · obtain ⟨p, hp, rfl⟩ := List.mem_map.mp h
        exact askable_joinParts hname (ih hp)

theorem Askable.of_mem_matchDeep {onlyFolders : Bool} {folder p : String}
    (h : p ∈ d.matchDeep cwd onlyFolders folder) : Path.Askable p := by
  rcases List.mem_append.mp h with h | h
  · split at h
    · rw [List.mem_singleton.mp h]
      exact Path.askable_empty
    · cases h
  · exact hd.of_mem_listDeep h

/-! ### Globs -/

omit hd in
theorem eq_of_mem_found {isThere : Bool} {p q : String} (h : q ∈ if isThere then [p] else []) :
    q = p := by
  split at h
  · exact List.mem_singleton.mp h
  · cases h

theorem Askable.ensures_matchLast (onlyFolders : Bool) {folder name : String}
    (hfolder : Path.Askable folder) (hname : Path.Askable name) :
    Succeeds (fun ns => ∀ n ∈ ns, Path.Askable n) (d.matchLast cwd onlyFolders folder name) := by
  unfold matchLast
  split
  · rw [checkFolder_of_askable hfolder]
    refine .ok fun n hn => ?_
    split at hn
    · exact hd.of_mem_matchDeep hn
    · exact hd.of_mem_listKind (List.mem_filter.mp hn).1
  · -- without a wildcard nothing is found but the name itself
    refine .ok fun n hn => ?_
    unfold matchName at hn
    simp only at hn
    rw [eq_of_mem_found hn]
    exact hname

theorem Askable.ensures_inFolders (onlyFolders : Bool) {folders : List String} {name : String}
    (hfolders : ∀ f ∈ folders, Path.Askable f) (hname : Path.Askable name) :
    Succeeds (fun ps => ∀ p ∈ ps, Path.Askable p) (do
      let found ← folders.mapM fun f =>
        (d.matchLast cwd onlyFolders f name).map fun ns => ns.map (Path.join f)
      .ok found.flatten) := by
  have heach : ∀ f ∈ folders, Succeeds (fun ps => ∀ p ∈ ps, Path.Askable p)
      ((d.matchLast cwd onlyFolders f name).map fun ns => ns.map (Path.join f)) := by
    intro f hf
    refine (hd.ensures_matchLast onlyFolders (hfolders f hf) hname).map fun ns hns p hp => ?_
    obtain ⟨n, hn, rfl⟩ := List.mem_map.mp hp
    exact (hfolders f hf).join (hns n hn)
  -- no folder fails, so the lists are all there
  refine (Ensures.mapM heach).bind fun found hall => .ok fun p hp => ?_
  obtain ⟨ps, hps, hp⟩ := List.mem_flatten.mp hp
  exact hall ps hps p hp

theorem Askable.ensures_globWithin (fuel : Nat) (onlyFolders : Bool) {path : String}
    (hpath : Path.Askable path) :
    Succeeds (fun ps => ∀ p ∈ ps, Path.Askable p) (d.globWithin cwd fuel onlyFolders path) := by
  induction fuel generalizing onlyFolders path with
  | zero => exact .ok fun p hp => absurd hp List.not_mem_nil
  | succ fuel ih =>
    obtain ⟨hfolder, hname⟩ := hpath.split
    unfold globWithin
    simp only
    split
    · -- no wildcard is left
      refine .ok fun p hp => ?_
      unfold matchPath at hp
      simp only at hp
      rw [eq_of_mem_found hp]
      exact hpath
    · split
      · exact hd.ensures_matchLast onlyFolders Path.askable_empty hname
      · split
        · exact (ih true hfolder).bind fun folders hfolders =>
            hd.ensures_inFolders onlyFolders hfolders hname
        · have hsingle : Succeeds (fun fs => ∀ f ∈ fs, Path.Askable f)
              (.ok [(Path.split path).1]) := .ok (List.forall_mem_singleton.mpr hfolder)
          exact hsingle.bind fun folders hfolders =>
            hd.ensures_inFolders onlyFolders hfolders hname

/-- **A glob that can be asked for** can be worked off. -/
theorem Askable.ensures_glob {path : String} (hpath : Path.Askable path) :
    Succeeds (fun ps => ∀ p ∈ ps, Path.Askable p) (d.glob cwd path) :=
  hd.ensures_globWithin _ false hpath

/-! ### Selections -/

section Select

variable {extensions : List String} (hextensions : ∀ e ∈ extensions, Path.Askable e)
include hextensions

theorem Askable.ensures_expandPaths {path : String} (hpath : Path.Askable path) :
    Succeeds (fun _ => True) (d.expandPaths cwd extensions path) := by
  unfold expandPaths
  split
  · -- a folder: one glob for each extension, made of parts that can all be asked for
    have heach : ∀ e ∈ extensions, Succeeds (fun _ => True)
        (d.glob cwd (Path.join (Path.join path anyDepth) ("*" ++ e))) := by
      intro e he
      have hdepth : Path.Askable anyDepth := by decide +kernel
      have hstar : Path.Askable "*" := by decide +kernel
      have hglob := (hpath.join hdepth).join (hstar.append (hextensions e he))
      exact (hd.ensures_glob hglob).mono (fun _ he => he) fun _ _ => trivial
    exact (Ensures.mapM heach).map fun _ _ => trivial
  · exact (hd.ensures_glob hpath).mono (fun _ he => he) fun _ _ => trivial

/-- **A selection by globs that can be asked for** is no fault. -/
theorem Askable.ensures_select {root : String} (hroot : Path.Askable root) {entries : List String}
    (hentries : ∀ e ∈ entries, Path.Askable e) :
    Succeeds (fun _ => True) (d.select cwd root extensions entries) := by
  have heach : ∀ e ∈ entries.filter fun e => (rejection? e).isNone,
      Succeeds (fun _ => True) (d.expand cwd root extensions e) := by
    intro e he
    have hpath := hroot.join (hentries e (List.mem_filter.mp he).1)
    exact (hd.ensures_expandPaths hextensions hpath).map fun _ _ => trivial
  exact (Ensures.mapM heach).map fun _ _ => trivial

end Select

end Names

end Disk

/-- **The sources of a configuration** are found without a fault, if its globs, its root and the
names on the disk can be asked for. -/
theorem Config.ensures_sources {σ : Type} {c : Config σ} {d : Disk} (cwd : String)
    (hd : d.Askable) (hroot : Path.Askable c.root)
    (hglobs : ∀ g ∈ c.settings.globs, Path.Askable g) :
    Succeeds (fun _ => True) (c.sources d cwd) := by
  have hextensions : ∀ e ∈ extensions, Path.Askable e := by decide +kernel
  have hfiles : Succeeds (fun _ => True) (c.files d cwd) :=
    (hd.ensures_select hextensions hroot hglobs).map fun _ _ => trivial
  exact hfiles.map fun _ _ => trivial

end Lintel
