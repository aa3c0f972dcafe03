import Lintel.Config
import Mathlib.Data.List.Nodup

/-!
# Settings and the library that reads them

A library that reads settings is known by its laws only (`Validation.Lawful`). They are used in two
ways: a field whose entry is of its type is read as the value of the entry
(`Validation.Lawful.read_found`), and a field without an entry is what it is unless set
(`Validation.Lawful.read_missing`). So a section that gives some fields values of their types is
accepted (`RuleConfig.ofEntries_of_read`).

The library built in obeys the laws (`Validation.lawful_builtin`).
-/

namespace Lintel

/-! ### Entries under texts -/

namespace Data

variable {α : Type} {name : α → String} {value : α → Data} {xs : List α}

theorem get?_cons_text (key : String) (d : Data) (es : List (Data × Data)) (key' : String) :
    get? ((.text key, d) :: es) key' = if key = key' then some d else get? es key' := by
  unfold get?
  rw [List.find?_cons]
  -- Keys are compared as data; on two texts this is comparison of the texts.
  change Option.map _ (match key == key' with | true => some (text key, d) | false => _) = _
  by_cases hkey : key = key'
  · rw [if_pos hkey, beq_iff_eq.mpr hkey]
    rfl
  · rw [if_neg hkey, beq_eq_false_iff_ne.mpr hkey]

theorem get?_map (hnodup : (xs.map name).Nodup) {x : α} (hx : x ∈ xs) :
    get? (xs.map fun x => (.text (name x), value x)) (name x) = some (value x) := by
  induction xs with
  | nil => cases hx
  | cons y xs ih =>
    rw [List.map_cons, List.nodup_cons] at hnodup
    rw [List.map_cons, get?_cons_text]
    rcases List.mem_cons.mp hx with rfl | hx
    · exact if_pos rfl
    · -- an entry before it has another name
      rw [if_neg fun heq => hnodup.1 (List.mem_map.mpr ⟨x, hx, heq.symm⟩)]
      exact ih hnodup.2 hx

theorem get?_map_eq_none {key : String} (h : ∀ x ∈ xs, name x ≠ key) :
    get? (xs.map fun x => (.text (name x), value x)) key = none := by
  induction xs with
  | nil => rfl
  | cons y xs ih =>
    rw [List.forall_mem_cons] at h
    rw [List.map_cons, get?_cons_text, if_neg h.1]
    exact ih h.2

theorem exists_get?_of_mem {es : List (Data × Data)} {key : String} {d : Data}
    (h : (text key, d) ∈ es) : ∃ d', get? es key = some d' := by
  cases hfind : get? es key with
  | some d' => exact ⟨d', rfl⟩
  | none =>
    unfold get? at hfind
    rw [Option.map_eq_none_iff, List.find?_eq_none] at hfind
    exact absurd (beq_self_eq_true key) (hfind _ h)

end Data

/-! ### Fields -/

namespace Field

variable {fields : List Field} {es : List (Data × Data)} {f : Field}

theorem fill_nil (fields : List Field) : Fill fields [] :=
  ⟨fun _ he => absurd he List.not_mem_nil, fun _ _ => .inl rfl⟩

/-- Entries under published names that no field has for its plain one. -/
theorem Fill.of_published {α : Type} (xs : List α) (field : α → Field) (value : α → Data)
    (hmem : ∀ x ∈ xs, field x ∈ fields)
    (hapart : ∀ f ∈ fields, ∀ f' ∈ fields, f'.published ≠ f.plain) :
    Fill fields (xs.map fun x => (.text (field x).published, value x)) := by
  refine ⟨fun e he => ?_, fun f hf => .inr (Data.get?_map_eq_none fun x hx => ?_)⟩
  · obtain ⟨x, hx, rfl⟩ := List.mem_map.mp he
    exact ⟨field x, hmem x hx, .inl rfl⟩
  · exact hapart f hf _ (hmem x hx)

/-- Entries under plain names that no field has for its published one. -/
theorem Fill.of_plain {α : Type} (xs : List α) (field : α → Field) (value : α → Data)
    (hmem : ∀ x ∈ xs, field x ∈ fields)
    (hapart : ∀ f ∈ fields, ∀ f' ∈ fields, f'.published ≠ f.plain) :
    Fill fields (xs.map fun x => (.text (field x).plain, value x)) := by
  refine ⟨fun e he => ?_, fun f hf => .inl (Data.get?_map_eq_none fun x hx heq => ?_)⟩
  · obtain ⟨x, hx, rfl⟩ := List.mem_map.mp he
    exact ⟨field x, hmem x hx, .inr rfl⟩
  · exact hapart (field x) (hmem x hx) f hf heq.symm

/-- The spelling of an entry that fills a field is the one that is used. -/
theorem Fill.exists_find? (h : Fill fields es) {key : String} {d : Data} (he : (.text key, d) ∈ es) :
    ∃ f ∈ fields, ∃ d', f.find? es = some (key, d') := by
  obtain ⟨f, hf, hkey⟩ := h.known _ he
  refine ⟨f, hf, ?_⟩
  obtain ⟨d', hget⟩ := Data.exists_get?_of_mem he
  rcases hkey with hkey | hkey
  · cases hkey
    exact ⟨d', by rw [find?, hget]⟩
  · cases hkey
    -- the published spelling is not given, too
    have hnone : Data.get? es f.published = none :=
      (h.once f hf).resolve_right fun hno => by
        rw [hget] at hno
        cases hno
    exact ⟨d', by rw [find?, hnone, hget]; rfl⟩

end Field

/-! ### Lawful libraries -/

namespace Validation

section Lawful

variable {v : Validation} (hv : v.Lawful) {fields : List Field} {es : List (Data × Data)}
  (hfill : Field.Fill fields es) {f : Field} (hf : f ∈ fields)
include hv hfill hf

theorem Lawful.read_found {α : Type} {spelling : String} {d : Data} {a : α}
    (hfind : f.find? es = some (spelling, d)) (reader : Data → Reading α)
    (hgood : reader d = .good a) (unset : α) : (v.keys fields es).read f unset reader = .good a := by
  rw [Keys.read, hv.keys_given hfill f hf, hfind]
  simp only [hgood]
  rfl

theorem Lawful.read_missing {α : Type} (hfind : f.find? es = none) (unset : α)
    (reader : Data → Reading α) : (v.keys fields es).read f unset reader = .good unset := by
  rw [Keys.read, hv.keys_given hfill f hf, hfind]

end Lawful

/-! ### The library built in -/

theorem textsFrom_map_text (n : Int) (xs : List String) :
    Reader.textsFrom n (xs.map .text) = .good xs := by
  induction xs generalizing n with
  | nil => rfl
  | cons x xs ih =>
    rw [List.map_cons, Reader.textsFrom, ih]
    rfl

theorem extras_of_fill {fields : List Field} {es : List (Data × Data)}
    (h : Field.Fill fields es) : Reader.extras fields es = [] := by
  unfold Reader.extras
  simp only
  rw [List.filterMap_eq_nil_iff]
  rintro ⟨key, d⟩ he
  obtain ⟨key, rfl⟩ : ∃ s, key = .text s := by
    obtain ⟨f, -, hkey | hkey⟩ := h.known _ he <;> exact ⟨_, hkey⟩
  -- the key fills a field, and no field is given twice, so this is the entry that counts
  obtain ⟨f, hf, d', hfind⟩ := h.exists_find? he
  have hused : key ∈ fields.filterMap fun f => (f.find? es).map (·.1) :=
    List.mem_filterMap.mpr ⟨f, hf, by rw [hfind]; rfl⟩
  exact if_pos (List.contains_iff_mem.mpr hused)

theorem count_int {n : Int} (h : 0 ≤ n) : Reader.count (.int n) = .good n := by
  unfold Reader.count Reader.whole
  refine if_neg fun hlow => ?_
  exact absurd (of_decide_eq_true (Bool.and_eq_true_iff.mp hlow).2) (Int.not_lt.mpr h)

theorem count_nonneg {d : Data} (h : (Reader.count d).problems = []) :
    0 ≤ (Reader.count d).value := by
  unfold Reader.count at h ⊢
  simp only at h ⊢
  split
  · exact Int.le_refl 0
  · -- a number that is too small would be a problem
    next hgood =>
    rw [if_neg hgood] at h
    rw [h] at hgood
    simpa using hgood

/-- **The library built in is lawful.** -/
theorem lawful_builtin : Validation.builtin.Lawful where
  keys_given _ _ _ := rfl
  keys_problems := extras_of_fill
  entries_map _ := rfl
  truth_bool _ := rfl
  text_text _ := rfl
  texts_list := textsFrom_map_text 0
  textsOrNull_null := rfl
  -- A list is no null, so it is read as lists of texts are.
  textsOrNull_list xs := by
    change (Reader.textsFrom 0 (xs.map .text)).map some = _
    rw [textsFrom_map_text]
    rfl
  count_int _ := count_int
  count_nonneg _ := count_nonneg
  dump_eq _ := rfl
  dumpPublished_eq _ := rfl

end Validation

/-! ### Sections -/

namespace RuleConfig

variable {v : Validation} {c : RuleConfig} {defaults : RuleOptions} {es : List (Data × Data)}

def fields (options : RuleOptions) : List Field :=
  commonFields ++ optionFields options

theorem mem_fields_of_common {f : Field} (h : f ∈ commonFields) (options : RuleOptions) :
    f ∈ fields options :=
  List.mem_append_left _ h

theorem apart_fields (options : RuleOptions) :
    ((fields options).map Field.published).Nodup ∧ ((fields options).map Field.plain).Nodup ∧
      ∀ f ∈ fields options, ∀ f' ∈ fields options, f'.published ≠ f.plain := by
  cases options <;> (simp only [fields, optionFields]; decide)

/-- **Entries whose fields are all read** are read as a configuration. -/
theorem ofEntries_of_read (hv : v.Lawful) (hfill : Field.Fill (fields defaults) es)
    (henabled : (v.keys (fields defaults) es).read enabledField true v.truth = .good c.enabled)
    (hseverity : (v.keys (fields defaults) es).read severityField none readSeverity
      = .good c.severity)
    (hexcluded : (v.keys (fields defaults) es).read excludedField none
      (fun d => v.textsOrNull d.listed) = .good c.excluded)
    (hoptions : readOptions defaults (v.keys (fields defaults) es) v = .good c.options) :
    ofEntries defaults es v = .ok c := by
  have hproblems := hv.keys_problems hfill
  unfold fields at henabled hseverity hexcluded hoptions hproblems
  unfold ofEntries
  simp only [henabled, hseverity, hexcluded, hoptions, hproblems]
  rfl

end RuleConfig

end Lintel
