import Lintel.Disk
import Lintel.Proofs.Path.Place
import Lintel.Proofs.Text.Ascii

/-!
# Reading files and writing them back

A path that leads somewhere on a disk leads to the place that it names (`resolve?_eq`). So a file
that was read under some path is written back to the place it came from if it is written under the
path that leads to it from the working directory (`written_relative`), and nothing else on the disk
changes (`file?_put`).

What does change is the text. Reading makes line feeds of carriage returns, with or without a line
feed after them, and writing does not undo that: the octets that are written hold no carriage return
(`not_mem_encode_lineFeeds`). Only a text without carriage returns comes through as it is
(`lineFeeds_eq_self`).
-/

namespace Lintel

namespace Disk

/-! ### Where paths lead to -/

theorem follow_eq {d : Disk} {place ns q : List String} (h : d.follow place ns = some q) :
    q = Path.walk place ns := by
  induction ns generalizing place with
  | nil => exact (Option.some.inj h).symm
  | cons n ns ih =>
    rw [follow] at h
    change q = Path.walk (Path.enter place n) ns
    unfold Path.enter
    -- A name leads nowhere from a place that is no folder. From a folder it leads where `enter`
    -- says, or nowhere.
    split at h
    · split at h
      · next hstay =>
        rw [if_pos hstay]
        exact ih h
      · next hstay =>
        rw [if_neg hstay]
        split at h
        · next hup =>
          rw [if_pos hup]
          exact ih h
        · next hup =>
          rw [if_neg hup]
          split at h
          · exact ih h
          · cases h
    · cases h

/-- **A path that leads somewhere leads to the place it names.** -/
theorem resolve?_eq {d : Disk} {cwd p : String} {q : List String} (h : d.resolve? cwd p = some q) :
    q = Path.place (Path.join cwd p) := by
  unfold resolve? at h
  split at h
  · cases h
  · exact follow_eq h

/-- The names on the way to a place are those of folders. -/
theorem follow_folders {d : Disk} {place ns q : List String} (h : d.follow place ns = some q)
    (hplace : ∀ p, p <+: place → p ≠ place → d.hasFolder p = true) :
    ∀ p, p <+: q → p ≠ q → d.hasFolder p = true := by
  induction ns generalizing place with
  | nil =>
    rw [← Option.some.inj h]
    exact hplace
  | cons n ns ih =>
    rw [follow] at h
    split at h
    · next hfolder =>
      split at h
      · exact ih h hplace
      · split at h
        · -- what lies above a place above lies above the place
          refine ih h fun p hp hne => ?_
          have hp' : p <+: place := hp.trans (List.dropLast_prefix place)
          by_cases heq : p = place
          · rw [heq]
            exact hfolder
          · exact hplace p hp' heq
        · -- A step down: the old place lies above the new one, and whatever lies above the old.
          split at h
          · refine ih h fun p hp hne => ?_
            rcases List.prefix_concat_iff.mp hp with heq | hp
            · exact absurd heq hne
            · by_cases heq : p = place
              · rw [heq]
                exact hfolder
              · exact hplace p hp heq
          · cases h
    · cases h

theorem hasFolder_of_file {d : Disk} {place : List String} {octets : Bytes}
    (h : d.file? place = some octets) : d.hasFolder place = false := by
  rw [hasFolder, h]
  rfl

section Cwd

variable {d : Disk} {cwd : String} (hcwd : Path.isAbsolute cwd = true)
  (hfolder : d.isFolder cwd cwd = true)
include hcwd hfolder

/-- The working directory, if it is there, and everything above it are folders. -/
theorem hasFolder_of_prefix {p : List String} (hp : p <+: Path.place cwd) :
    d.hasFolder p = true := by
  unfold isFolder at? at hfolder
  cases hq : d.resolve? cwd cwd with
  | none =>
    rw [hq] at hfolder
    cases hfolder
  | some q =>
    have hplace := resolve?_eq hq
    rw [Path.join_of_isAbsolute cwd hcwd] at hplace
    rw [hq] at hfolder
    have hentry : d.entry? q = some .folder := beq_iff_eq.mp hfolder
    rw [← hplace] at hp
    by_cases heq : p = q
    · -- the directory itself was found to be a folder
      rw [heq]
      unfold entry? at hentry
      split at hentry
      · cases hentry
      · split at hentry
        · next hhas => exact hhas
        · cases hentry
    · -- the folders above it were gone through on the way
      unfold resolve? at hq
      split at hq
      · cases hq
      · refine follow_folders hq (fun p hp hne => ?_) p hp heq
        exact absurd (List.prefix_nil.mp hp) hne

/-- No file lies where the working directory is, or above it. -/
theorem not_prefix_of_file {place : List String} {octets : Bytes}
    (h : d.file? place = some octets) : ¬ place <+: Path.place cwd := by
  intro hprefix
  have hhas := hasFolder_of_prefix hcwd hfolder hprefix
  rw [hasFolder_of_file h] at hhas
  cases hhas

end Cwd

theorem file?_of_read? {d : Disk} {cwd p : String} {octets : Bytes}
    (h : d.read? cwd p = some octets) : d.file? (Path.place (Path.join cwd p)) = some octets := by
  unfold read? at? at h
  cases hq : d.resolve? cwd p with
  | none =>
    rw [hq] at h
    cases h
  | some q =>
    rw [hq, Option.bind_some] at h
    rw [← resolve?_eq hq]
    cases hentry : d.entry? q with
    | none =>
      rw [hentry] at h
      cases h
    | some entry =>
      rw [hentry] at h
      cases entry with
      -- a folder has no octets to read
      | folder => cases h
      | file content =>
        cases h
        unfold entry? at hentry
        cases hfile : d.file? q with
        | some other =>
          rw [hfile] at hentry
          cases hentry
          rfl
        | none =>
          rw [hfile] at hentry
          simp only at hentry
          -- What is no file is at most a folder, and that case is over.
          split at hentry <;> cases hentry

/-! ### Writing -/

theorem find?_replaced (files : List (List String × Bytes)) (q : List String) (octets : Bytes)
    (p : List String) :
    (files.map fun f => if f.1 = q then (q, octets) else f).find? (·.1 == p)
      = (files.find? (·.1 == p)).map fun f => if f.1 = q then (q, octets) else f := by
  -- replacing leaves every file at its place, so the search finds the same entry
  have hplace : ((fun f : List String × Bytes => f.1 == p)
      ∘ fun f => if f.1 = q then (q, octets) else f) = fun f => f.1 == p := by
    funext f
    simp only [Function.comp]
    split
    · next heq => rw [heq]
    · rfl
  rw [List.find?_map, hplace]

/-- **Only the place that is written to changes.** -/
theorem file?_put (d : Disk) (q : List String) (octets : Bytes) (p : List String) :
    (d.put q octets).file? p = if p = q then some octets else d.file? p := by
  unfold put
  split
  · next hthere =>
    -- the file at the place has its octets replaced
    unfold file? at hthere ⊢
    simp only
    rw [find?_replaced, Option.map_map]
    cases hfind : d.files.find? (·.1 == p) with
    | none =>
      by_cases hp : p = q
      · rw [← hp, hfind] at hthere
        cases hthere
      · rw [if_neg hp]
        rfl
    | some f =>
      have hf : f.1 = p := by simpa using List.find?_some hfind
      by_cases hp : p = q
      · rw [if_pos hp, Option.map_some]
        simp [hf, hp]
      · rw [if_neg hp, Option.map_some]
        simp [hf, hp]
  · next hnone =>
    -- a file is added at the end
    unfold file? at hnone ⊢
    simp only
    rw [List.find?_append]
    by_cases hp : p = q
    · have hfind : d.files.find? (·.1 == q) = none := by
        rw [Option.isSome_map] at hnone
        exact Option.not_isSome_iff_eq_none.mp hnone
      rw [if_pos hp, hp, hfind]
      simp
    · have hfind : [(q, octets)].find? (·.1 == p) = none := by simp [Ne.symm hp]
      rw [if_neg hp, hfind, Option.or_none]

/-- What becomes of writing octets to a place: nothing is written, or a folder is in the way, or the
octets are at the place. -/
inductive Written (d : Disk) (place : List String) (octets : Bytes) : Except Fault Disk → Prop where
  | nowhere : Written d place octets (.ok d)
  | inTheWay (path : String) (h : d.hasFolder place = true) :
    Written d place octets (.error (.inTheWay path))
  | there (h : d.hasFolder place = false) : Written d place octets (.ok (d.put place octets))

theorem Written.cases {d d' : Disk} {place : List String} {octets : Bytes}
    (h : Written d place octets (.ok d')) : d' = d ∨ d' = d.put place octets := by
  cases h with
  | nowhere => exact .inl rfl
  | there _ => exact .inr rfl

/-- **Writing under a path that ends with a name** is writing to the place that the path names. -/
theorem written_write {d : Disk} {cwd p : String} (hcwd : Path.isAbsolute cwd = true) {n : String}
    (hlast : (Path.components (Path.join cwd p)).getLast? = some n) (hn : Path.IsName n)
    (octets : Bytes) : Written d (Path.place (Path.join cwd p)) octets (d.write cwd p octets) := by
  have habsolute := Path.isAbsolute_split (Path.isAbsolute_join hcwd p)
  obtain ⟨hplace, hsplit⟩ := Path.place_split (Path.isAbsolute_join hcwd p)
  -- The folder is looked for by the first part of the path, and the name is the second.
  have hname : (Path.split (Path.join cwd p)).2 = n := by
    rw [hsplit] at hlast
    exact Option.some.inj hlast
  unfold write
  simp only
  split
  · exact .nowhere
  · next q hq =>
    have hfolder := resolve?_eq hq
    rw [Path.join_of_isAbsolute cwd habsolute] at hfolder
    rw [hplace, ← hfolder, hname, Path.enter_name hn]
    split
    · next hway =>
      have hne : n.isEmpty = false := by simpa using hn.ne_empty
      rw [hne, Bool.false_or] at hway
      exact .inTheWay p hway
    · next hfree =>
      rw [Bool.or_eq_true, not_or] at hfree
      exact .there (Bool.eq_false_iff.mpr hfree.2)

/-- **A file goes back to where it came from.** What was read under a path is written to the same
place under the relative path to the file from the working directory. -/
theorem written_relative {d : Disk} {cwd : String} (hcwd : Path.isAbsolute cwd = true)
    (hfolder : d.isFolder cwd cwd = true) {p : String} {before : Bytes}
    (hread : d.read? cwd p = some before) (d' : Disk) (octets : Bytes) :
    Written d' (Path.place (Path.join cwd p)) octets
      (d'.write cwd (Path.join cwd (Path.relative cwd p cwd)) octets) := by
  have habove := not_prefix_of_file hcwd hfolder (file?_of_read? hread)
  have hlast := Path.getLast?_join_relative hcwd p habove
  have hjoin : Path.join cwd (Path.join cwd (Path.relative cwd p cwd))
      = Path.join cwd (Path.relative cwd p cwd) :=
    Path.join_of_isAbsolute cwd (Path.isAbsolute_join hcwd _)
  -- the place has a last name, because it is not the root
  cases hn : (Path.place (Path.join cwd p)).getLast? with
  | none =>
    rw [List.getLast?_eq_none_iff.mp hn] at habove
    exact absurd List.nil_prefix habove
  | some n =>
    rw [hn, ← hjoin] at hlast
    have hname := Path.isName_place _ n (List.mem_of_getLast? hn)
    have hwritten := written_write (d := d') hcwd hlast hname octets
    rwa [hjoin, Path.place_join_relative hcwd p] at hwritten

/-! ### Line ends -/

theorem lineFeeds_eq_self {cs : List Char} (h : '\r' ∉ cs) : lineFeeds cs = cs := by
  fun_induction lineFeeds cs with
  | case1 => rfl
  | case2 cs ih => exact absurd List.mem_cons_self h
  | case3 cs hne ih => exact absurd List.mem_cons_self h
  | case4 c cs hcr hcrlf ih =>
    rw [ih fun hmem => h (List.mem_cons_of_mem _ hmem)]

theorem not_mem_lineFeeds (cs : List Char) : '\r' ∉ lineFeeds cs := by
  fun_induction lineFeeds cs with
  | case1 => exact List.not_mem_nil
  | case2 cs ih =>
    rw [List.mem_cons, not_or]
    exact ⟨by decide, ih⟩
  | case3 cs hne ih =>
    rw [List.mem_cons, not_or]
    exact ⟨by decide, ih⟩
  -- neither of the two forms of a line end that has a carriage return
  | case4 c cs hcr hcrlf ih =>
    rw [List.mem_cons, not_or]
    exact ⟨fun hc => hcrlf hc.symm, ih⟩

/-- The octets of a text hold an octet below 0x80 only for the character that it is. -/
theorem mem_encode_iff {b : UInt8} (hb : b.toNat < 0x80) {cs : List Char} :
    b ∈ Utf8.encode cs ↔ Char.ofNat b.toNat ∈ cs := by
  constructor
  · intro h
    obtain ⟨xs, ys, hsplit⟩ := List.append_of_mem h
    -- an octet below 0x80 is never part of a longer character, so it cuts the text
    obtain ⟨ds, es, rfl, -, -⟩ := Utf8.exists_of_encode_eq hb hsplit
    exact List.mem_append_right _ List.mem_cons_self
  · intro h
    obtain ⟨ds, es, rfl⟩ := List.append_of_mem h
    rw [Utf8.encode_append, Utf8.encode_cons, Utf8.encodeChar_one hb]
    exact List.mem_append_right _ List.mem_cons_self

/-- **A text that was read holds no carriage return.** -/
theorem not_mem_encode_lineFeeds (cs : List Char) :
    (0x0D : UInt8) ∉ Utf8.encode (lineFeeds cs) := by
  rw [mem_encode_iff (by decide)]
  exact not_mem_lineFeeds cs

end Disk

end Lintel
