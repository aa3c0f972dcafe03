import Lintel.Proofs.Edit.Graded
import Lintel.Proofs.Rules.Answering
import Lintel.Proofs.Text.Location

/-!
# What is left of a text without trailing blanks

The rule on blanks looks for runs of octets, and its edits take them away. Here this is told line by
line, in characters: a round of corrections makes `strip l` of a line `l` (`applyEdits_runs`).

A carriage return at the end of a line is not a blank, but blanks in front of it are trailing ones.
So taking away the blanks behind a carriage return can bring to light those in front of it, and one
round does not always do. Two do: `strip (strip l)` is `tidy l`, in which nothing is left to be
found (`strip_strip`, `strip_tidy`, `runs_eq_nil`).

**How.** A line is what is kept, blanks, and a carriage return or nothing (`Parts`). The search goes
through what is kept without a finding, because its last octet is not a blank and does not stand at
the end of the line (`runsFrom_append`). It then reports the blanks, if there are any
(`runsFrom_line`). From there on the octets are those of the other lines.
-/

namespace Lintel

def mapLines (f : List Char → List Char) (text : String) : String :=
  String.ofList (joinWith '\n' ((splitLines text.toList).map f))

theorem splitLines_ne_nil (cs : List Char) : splitLines cs ≠ [] :=
  splitOnChar_ne_nil '\n' cs

theorem not_mem_of_mem_splitLines {cs l : List Char} (h : l ∈ splitLines cs) : '\n' ∉ l :=
  not_mem_of_mem_splitOnChar h

theorem splitLines_mapLines {f : List Char → List Char} (hf : ∀ l, '\n' ∉ l → '\n' ∉ f l)
    (text : String) :
    splitLines (mapLines f text).toList = (splitLines text.toList).map f := by
  rw [mapLines, String.toList_ofList, splitLines, splitLines]
  refine splitOnChar_joinWith (fun h => splitOnChar_ne_nil _ _ (List.map_eq_nil_iff.mp h)) ?_
  intro part hpart
  obtain ⟨l, hl, rfl⟩ := List.mem_map.mp hpart
  exact hf l (not_mem_of_mem_splitOnChar hl)

theorem mapLines_mapLines {f g : List Char → List Char} (hf : ∀ l, '\n' ∉ l → '\n' ∉ f l)
    (text : String) : mapLines g (mapLines f text) = mapLines (fun l => g (f l)) text := by
  rw [mapLines, splitLines_mapLines hf, List.map_map]
  rfl

namespace Rules.TrailingWhitespace

/-! ### Lines -/

/-- A space or a tab. -/
def isBlank (c : Char) : Bool := c == ' ' || c == '\t'

/-- The line without its trailing blanks. A carriage return at its end stays. -/
def strip (l : List Char) : List Char :=
  if l.getLast? = some '\r' then l.dropLast.rdropWhile isBlank ++ ['\r']
  else l.rdropWhile isBlank

/-- The line without the blanks at its end and, if there is a carriage return then, without those
in front of it. -/
def tidy (l : List Char) : List Char :=
  let kept := l.rdropWhile isBlank
  if kept.getLast? = some '\r' then kept.dropLast.rdropWhile isBlank ++ ['\r'] else kept

theorem isBlank_cr : isBlank '\r' = false := by decide

theorem eq_of_getLast?_eq {l : List Char} (h : l.getLast? = some '\r') :
    l = l.dropLast ++ ['\r'] :=
  (List.dropLast_append_getLast? '\r' h).symm

theorem rdropWhile_of_cr {l : List Char} (h : l.getLast? = some '\r') :
    l.rdropWhile isBlank = l := by
  rw [eq_of_getLast?_eq h]
  exact List.rdropWhile_concat_neg _ _ _ (by rw [isBlank_cr]; exact Bool.false_ne_true)

theorem strip_concat_cr (l : List Char) :
    strip (l ++ ['\r']) = l.rdropWhile isBlank ++ ['\r'] := by
  rw [strip, if_pos List.getLast?_concat, List.dropLast_concat]

theorem tidy_eq_strip (l : List Char) : tidy l = strip (l.rdropWhile isBlank) := by
  rw [strip, List.rdropWhile_idempotent]
  rfl

/-- **A second round does what is left to do.** -/
theorem strip_strip (l : List Char) : strip (strip l) = tidy l := by
  rw [tidy_eq_strip]
  -- a carriage return at the end is kept by the first round, and so by the second
  by_cases h : l.getLast? = some '\r'
  · rw [rdropWhile_of_cr h]
    conv => lhs; rw [eq_of_getLast?_eq h]
    conv => rhs; rw [eq_of_getLast?_eq h]
    rw [strip_concat_cr, strip_concat_cr, List.rdropWhile_idempotent]
  · have hkept : strip l = l.rdropWhile isBlank := by rw [strip, if_neg h]
    rw [hkept]

/-- **And there is nothing to do for a third.** -/
theorem strip_tidy (l : List Char) : strip (tidy l) = tidy l := by
  rw [tidy_eq_strip]
  by_cases h : (l.rdropWhile isBlank).getLast? = some '\r'
  · rw [eq_of_getLast?_eq h, strip_concat_cr, strip_concat_cr, List.rdropWhile_idempotent]
  · have hkept : strip (l.rdropWhile isBlank) = l.rdropWhile isBlank := by
      rw [strip, if_neg h, List.rdropWhile_idempotent]
    rw [hkept, hkept]

/-- Blanks on both sides of a carriage return. -/
example : strip "a \r ".toList = "a \r".toList ∧ tidy "a \r ".toList = "a\r".toList := by decide

/-- A line taken apart: what is kept, the blanks that go, and a carriage return or nothing. -/
structure Parts (l kept blanks eol : List Char) : Prop where
  eq : l = kept ++ blanks ++ eol
  strip_eq : strip l = kept ++ eol
  blank : ∀ c ∈ blanks, isBlank c = true
  kept_last : ∀ front c, kept = front ++ [c] → isBlank c = false
  eol_eq : eol = [] ∨ eol = ['\r']
  /-- A carriage return at the end of the line is not among what is kept. -/
  cr : ∀ front, kept = front ++ ['\r'] → blanks ++ eol ≠ []

theorem not_isBlank_of_rdropWhile {l front : List Char} {c : Char}
    (h : l.rdropWhile isBlank = front ++ [c]) : isBlank c = false := by
  have hne : l.rdropWhile isBlank ≠ [] := by
    rw [h]
    exact List.concat_ne_nil c front
  have hlast := List.rdropWhile_last_not isBlank l hne
  simp only [h, List.getLast_concat] at hlast
  exact Bool.eq_false_iff.mpr hlast

/-- **Every line has its parts.** -/
theorem exists_parts (l : List Char) : ∃ kept blanks eol, Parts l kept blanks eol := by
  by_cases h : l.getLast? = some '\r'
  · refine ⟨l.dropLast.rdropWhile isBlank, l.dropLast.rtakeWhile isBlank, ['\r'], ?_, ?_,
      fun c hc => List.mem_rtakeWhile_imp hc, fun front c => not_isBlank_of_rdropWhile, .inr rfl,
      fun front _ => List.concat_ne_nil _ _⟩
    · rw [List.rdropWhile_append_rtakeWhile]
      exact eq_of_getLast?_eq h
    · rw [strip, if_pos h]
  · refine ⟨l.rdropWhile isBlank, l.rtakeWhile isBlank, [], ?_, ?_,
      fun c hc => List.mem_rtakeWhile_imp hc, fun front c => not_isBlank_of_rdropWhile, .inl rfl,
      fun front hfront hnone => ?_⟩
    · rw [List.append_nil, List.rdropWhile_append_rtakeWhile]
    · rw [strip, if_neg h, List.append_nil]
    · -- without blanks all of the line is kept, and it does not end like this
      have hline := List.rdropWhile_append_rtakeWhile (p := isBlank) (l := l)
      rw [List.append_nil] at hnone
      rw [hnone, List.append_nil, hfront] at hline
      rw [← hline, List.getLast?_concat] at h
      exact h rfl

theorem mem_of_mem_strip {l : List Char} {c : Char} (h : c ∈ strip l) : c ∈ l := by
  obtain ⟨kept, blanks, eol, hparts⟩ := exists_parts l
  rw [hparts.strip_eq, List.mem_append] at h
  rw [hparts.eq, List.mem_append, List.mem_append]
  exact h.imp_left Or.inl

theorem mem_of_mem_tidy {l : List Char} {c : Char} (h : c ∈ tidy l) : c ∈ l := by
  rw [← strip_strip] at h
  exact mem_of_mem_strip (mem_of_mem_strip h)

theorem Parts.blanks_eq_nil {l kept blanks eol : List Char} (h : Parts l kept blanks eol)
    (hl : strip l = l) : blanks = [] := by
  have hlength := congrArg List.length hl
  rw [h.strip_eq] at hlength
  conv at hlength => rhs; rw [h.eq]
  simp only [List.length_append] at hlength
  exact List.length_eq_zero_iff.mp (by omega)

/-! ### The search -/

theorem newline_not_isSpace : isSpace newline = false := by decide

/-- No run has begun in front of a line feed, and the search goes on behind it. -/
theorem runsFrom_newline (offset : Nat) (rest : Bytes) :
    runsFrom offset none (newline :: rest) = runsFrom (offset + 1) none rest := by
  rw [runsFrom.eq_def]
  simp only [newline_not_isSpace, Bool.false_eq_true, if_false]

theorem atLineEnd_eq_false {b c : UInt8} {rest : Bytes} (hb : b ≠ newline) (hc : c ≠ newline) :
    atLineEnd (b :: c :: rest) = false := by
  rw [atLineEnd, beq_eq_false_iff_ne.mpr hb, beq_eq_false_iff_ne.mpr hc, Bool.and_false]
  rfl

theorem runsFrom_cons_of_isSpace {b : UInt8} (hb : isSpace b = true) (rest : Bytes) (offset : Nat)
    (run : Option Nat) :
    runsFrom offset run (b :: rest) = runsFrom (offset + 1) (some (run.getD offset)) rest := by
  rw [runsFrom.eq_def]
  exact if_pos hb

theorem runsFrom_cons_of_not {b : UInt8} {rest : Bytes} (hb : isSpace b = false)
    (hend : atLineEnd (b :: rest) = false) (offset : Nat) (run : Option Nat) :
    runsFrom offset run (b :: rest) = runsFrom (offset + 1) none rest := by
  rw [runsFrom.eq_def]
  simp only [hb, hend]
  cases run with
  | none => rfl
  | some start => rfl

/-- **What does not end with a blank is gone through without a finding**, up to its last octet, if
this one does not stand at the end of the line. -/
theorem runsFrom_append {front : Bytes} {b : UInt8} {rest : Bytes} (hfront : newline ∉ front)
    (hb : isSpace b = false) (hnewline : b ≠ newline) (hend : atLineEnd (b :: rest) = false)
    (offset : Nat) (run : Option Nat) :
    runsFrom offset run (front ++ b :: rest) = runsFrom (offset + front.length + 1) none rest := by
  induction front generalizing offset run with
  | nil => exact runsFrom_cons_of_not hb hend offset run
  | cons c front ih =>
    rw [List.mem_cons, not_or] at hfront
    have hlength : offset + (c :: front).length + 1 = offset + 1 + front.length + 1 := by
      rw [List.length_cons]
      omega
    rw [List.cons_append, hlength]
    cases hc : isSpace c with
    | true =>
      -- Blanks begin a run or lengthen it: the run is any in the hypothesis.
      rw [runsFrom_cons_of_isSpace hc]
      exact ih hfront.2 _ _
    | false =>
      -- Two octets are looked at to see the end of a line, and neither of these two ends one.
      have hinside : atLineEnd (c :: (front ++ b :: rest)) = false := by
        cases front with
        | nil => exact atLineEnd_eq_false (Ne.symm hfront.1) hnewline
        | cons d front =>
          rw [List.mem_cons, not_or] at hfront
          exact atLineEnd_eq_false (Ne.symm hfront.1) (Ne.symm hfront.2.1)
      rw [runsFrom_cons_of_not hc hinside]
      exact ih hfront.2 _ _

theorem runsFrom_blanks {blanks : Bytes} (h : ∀ b ∈ blanks, isSpace b = true) (rest : Bytes)
    (offset start : Nat) :
    runsFrom offset (some start) (blanks ++ rest)
      = runsFrom (offset + blanks.length) (some start) rest := by
  induction blanks generalizing offset with
  | nil => rfl
  | cons b blanks ih =>
    obtain ⟨hb, hrest⟩ := List.forall_mem_cons.mp h
    -- one octet further on in the text is one less to go
    have hlength : offset + (b :: blanks).length = offset + 1 + blanks.length := by
      rw [List.length_cons]
      omega
    rw [List.cons_append, runsFrom_cons_of_isSpace hb, hlength]
    exact ih hrest _

/-- The octets that may follow a line: none, or a line feed and others. -/
def Follows (rest : Bytes) : Prop :=
  rest = [] ∨ ∃ more, rest = newline :: more

/-- At the end of a line, with or without a carriage return, a run that has begun is reported. -/
theorem runsFrom_eol {eol rest : Bytes} (heol : eol = [] ∨ eol = [0x0D]) (hrest : Follows rest)
    (offset : Nat) (run : Option Nat) :
    runsFrom offset run (eol ++ rest)
      = (run.map fun start => (start, offset)).toList
        ++ runsFrom (offset + eol.length) none rest := by
  have hspace : isSpace 0x0D = false := by decide
  -- A carriage return is no blank, so that it is passed only as the end of a line.
  rcases heol with rfl | rfl
  · rcases hrest with rfl | ⟨more, rfl⟩
    · cases run with
      | none => rfl
      | some start => rfl
    · cases run with
      | none => rfl
      | some start =>
        rw [List.nil_append, runsFrom, newline_not_isSpace]
        rfl
  · have hend : atLineEnd (0x0D :: rest) = true := by
      rcases hrest with rfl | ⟨more, rfl⟩
      · rfl
      · rfl
    rw [List.singleton_append, runsFrom.eq_def]
    simp only [hspace, hend]
    cases run with
    | none => rfl
    | some start => rfl

/-- Runs are ranges that are apart from each other, and none begins before the search does. -/
theorem runsFrom_apart (offset : Nat) (run : Option Nat) (bs : Bytes)
    (h : run.getD offset ≤ offset) :
    (∀ r ∈ runsFrom offset run bs, run.getD offset ≤ r.1 ∧ r.1 ≤ r.2) ∧
      (runsFrom offset run bs).Pairwise fun a b => a.2 < b.1 := by
  fun_induction runsFrom offset run bs with
  | case1 offset start =>
    refine ⟨fun r hr => ?_, List.pairwise_singleton _ _⟩
    rw [List.mem_singleton.mp hr]
    exact ⟨Nat.le_refl _, h⟩
  | case2 offset => exact ⟨fun r hr => (nomatch hr), List.Pairwise.nil⟩
  | case3 offset run b rest hb ih => exact ih (Nat.le_succ_of_le h)
  | case4 offset b rest hb start hend ih =>
    -- the run that is reported ends where the search goes on
    obtain ⟨hfirst, hapart⟩ := ih (Nat.le_refl _)
    refine ⟨fun r hr => ?_, List.pairwise_cons.mpr ⟨fun r hr => (hfirst r hr).1, hapart⟩⟩
    rcases List.mem_cons.mp hr with rfl | hr
    · exact ⟨Nat.le_refl _, h⟩
    · exact (hfirst r hr).imp_left fun hle => Nat.le_trans h (Nat.le_of_succ_le hle)
  | case5 offset b rest hb start hend ih =>
    obtain ⟨hfirst, hapart⟩ := ih (Nat.le_refl _)
    refine ⟨fun r hr => ?_, hapart⟩
    exact (hfirst r hr).imp_left fun hle => Nat.le_trans h (Nat.le_of_succ_le hle)
  | case6 offset b rest hb ih =>
    obtain ⟨hfirst, hapart⟩ := ih (Nat.le_refl _)
    exact ⟨fun r hr => (hfirst r hr).imp_left Nat.le_of_succ_le, hapart⟩

/-! ### The search in a line -/

theorem isSpace_of_mem_encode {blanks : List Char} (h : ∀ c ∈ blanks, isBlank c = true) :
    ∀ b ∈ Utf8.encode blanks, isSpace b = true := by
  intro b hb
  obtain ⟨c, hc, hbc⟩ := List.mem_flatMap.mp hb
  have hblank := h c hc
  rw [isBlank, Bool.or_eq_true, beq_iff_eq, beq_iff_eq] at hblank
  -- a space or a tab, which is one octet
  rcases hblank with rfl | rfl
  · rw [List.mem_singleton.mp hbc]
    decide
  · rw [List.mem_singleton.mp hbc]
    decide

/-- The last octet of a character that is no blank is none either, and if it is that of a carriage
return then so is the character. -/
theorem exists_last_octet {c : Char} (hblank : isBlank c = false) (hc : c ≠ '\n') :
    ∃ front b, String.utf8EncodeChar c = front ++ [b] ∧ newline ∉ front ∧ b ≠ newline ∧
      isSpace b = false ∧ (b = 0x0D → c = '\r') := by
  have hnewline := Utf8.newline_not_mem_encodeChar hc
  -- A character of one octet is that octet.
  rcases Utf8.encodeChar_cases c with ⟨b, -, rfl, hone⟩ | hhigh
  · rw [hone, List.mem_singleton] at hnewline
    refine ⟨[], b, hone, List.not_mem_nil, Ne.symm hnewline, ?_, ?_⟩
    · rw [isSpace, Bool.or_eq_false_iff, beq_eq_false_iff_ne, beq_eq_false_iff_ne]
      refine ⟨?_, ?_⟩
      · rintro rfl
        exact absurd hblank (by decide)
      · rintro rfl
        exact absurd hblank (by decide)
    · rintro rfl
      decide
  · -- no octet of the character is one of those
    have hne := String.utf8EncodeChar_ne_nil (c := c)
    have hlast := hhigh _ (List.getLast_mem hne)
    refine ⟨_, _, (List.dropLast_append_getLast hne).symm,
      fun hmem => hnewline (List.dropLast_subset _ hmem),
      ne_of_mem_of_not_mem (List.getLast_mem hne) hnewline, ?_, ?_⟩
    · refine Bool.eq_false_iff.mpr fun hspace => ?_
      have hlow := toNat_lt_of_isSpace hspace
      omega
    · intro heq
      rw [heq] at hlast
      exact absurd hlast (by decide)

/-- **What is kept of a line is gone through without a finding.** -/
theorem runsFrom_kept {kept : List Char} {rest : Bytes} (hline : '\n' ∉ kept)
    (hlast : ∀ front c, kept = front ++ [c] → isBlank c = false)
    (hcr : ∀ front, kept = front ++ ['\r'] → ∃ b more, rest = b :: more ∧ b ≠ newline)
    (offset : Nat) :
    runsFrom offset none (Utf8.encode kept ++ rest)
      = runsFrom (offset + (Utf8.encode kept).length) none rest := by
  rcases List.eq_nil_or_concat kept with rfl | ⟨cs, c, rfl⟩
  · rfl
  · rw [List.concat_eq_append] at hline hlast hcr ⊢
    rw [List.mem_append, List.mem_singleton, not_or] at hline
    obtain ⟨front, b, hoctets, hfront, hnewline, hspace, hreturn⟩ :=
      exists_last_octet (hlast cs c rfl) (Ne.symm hline.2)
    have hencode : Utf8.encode (cs ++ [c]) = (Utf8.encode cs ++ front) ++ [b] := by
      rw [Utf8.encode_append, Utf8.encode_cons, Utf8.encode_nil, List.append_nil, hoctets,
        List.append_assoc]
    -- A carriage return at the end of what is kept would be the end of the line with a line feed
    -- behind it, and there is none.
    have hend : atLineEnd (b :: rest) = false := by
      by_cases hb : b = 0x0D
      · obtain ⟨d, more, rfl, hd⟩ := hcr cs (by rw [hreturn hb])
        exact atLineEnd_eq_false hnewline hd
      · rw [atLineEnd.eq_def]
        simp only [beq_eq_false_iff_ne.mpr hnewline, beq_eq_false_iff_ne.mpr hb, Bool.false_and,
          Bool.or_self]
    have hpassed : newline ∉ Utf8.encode cs ++ front := by
      rw [List.mem_append, not_or]
      exact ⟨Utf8.newline_not_mem_encode hline.1, hfront⟩
    have hlength : (Utf8.encode cs ++ front ++ [b]).length
        = (Utf8.encode cs ++ front).length + 1 := by
      rw [List.length_append, List.length_singleton]
    rw [hencode, List.append_assoc, List.singleton_append,
      runsFrom_append hpassed hspace hnewline hend, hlength]
    rfl

/-- A carriage return that is kept does not end the line: a blank stands behind it, or another
carriage return. -/
theorem Parts.exists_behind_cr {l kept blanks eol : List Char} (h : Parts l kept blanks eol)
    {front : List Char} (hfront : kept = front ++ ['\r']) (rest : Bytes) :
    ∃ b more, Utf8.encode blanks ++ (Utf8.encode eol ++ rest) = b :: more ∧ b ≠ newline := by
  have hsome := h.cr front hfront
  cases hblanks : Utf8.encode blanks with
  | cons b more =>
    refine ⟨b, more ++ (Utf8.encode eol ++ rest), rfl, ?_⟩
    rintro rfl
    have hspace := isSpace_of_mem_encode h.blank newline (by rw [hblanks]; exact List.mem_cons_self)
    rw [newline_not_isSpace] at hspace
    cases hspace
  | nil =>
    -- without blanks the line ends with a carriage return of its own
    rw [Utf8.encode_eq_nil.mp hblanks, List.nil_append] at hsome
    obtain rfl := h.eol_eq.resolve_left hsome
    exact ⟨0x0D, rest, rfl, by decide⟩

/-- What is found in a line that begins at an offset: its blanks, if there are any. -/
def lineRuns (offset : Nat) (kept blanks : List Char) : List (Nat × Nat) :=
  if blanks = [] then []
  else [(offset + (Utf8.encode kept).length,
    offset + (Utf8.encode kept).length + (Utf8.encode blanks).length)]

/-- **The blanks of a line are found**, if there are any. -/
theorem Parts.runsFrom_behind {l kept blanks eol : List Char} (h : Parts l kept blanks eol)
    {rest : Bytes} (hrest : Follows rest) (offset : Nat) :
    runsFrom (offset + (Utf8.encode kept).length) none
        (Utf8.encode blanks ++ (Utf8.encode eol ++ rest))
      = lineRuns offset kept blanks ++ runsFrom (offset + (Utf8.encode kept).length
          + (Utf8.encode blanks).length + (Utf8.encode eol).length) none rest := by
  have heol : Utf8.encode eol = [] ∨ Utf8.encode eol = [0x0D] := by
    rcases h.eol_eq with rfl | rfl
    · exact .inl rfl
    · exact .inr (by decide)
  have hspaces := isSpace_of_mem_encode h.blank
  rw [lineRuns]
  -- A run is reported from its first blank on, so that no blanks give no run.
  cases hblanks : Utf8.encode blanks with
  | nil =>
    rw [if_pos (Utf8.encode_eq_nil.mp hblanks), List.nil_append, runsFrom_eol heol hrest]
    rfl
  | cons b more =>
    have hne : blanks ≠ [] := by
      rintro rfl
      cases hblanks
    rw [hblanks] at hspaces
    obtain ⟨hb, hmore⟩ := List.forall_mem_cons.mp hspaces
    rw [if_neg hne, List.cons_append, runsFrom_cons_of_isSpace hb,
      runsFrom_blanks hmore, runsFrom_eol heol hrest, List.length_cons]
    have hcount : offset + (Utf8.encode kept).length + 1 + more.length
        = offset + (Utf8.encode kept).length + (more.length + 1) := by omega
    rw [hcount]
    rfl

/-- **What is found in a line and behind it.** -/
theorem runsFrom_line {l kept blanks eol : List Char} (h : Parts l kept blanks eol)
    (hl : '\n' ∉ l) {rest : Bytes} (hrest : Follows rest) (offset : Nat) :
    runsFrom offset none (Utf8.encode l ++ rest)
      = lineRuns offset kept blanks ++ runsFrom (offset + (Utf8.encode l).length) none rest := by
  -- kept characters, blanks and the end of the line, one after the other
  have hencode : Utf8.encode l ++ rest
      = Utf8.encode kept ++ (Utf8.encode blanks ++ (Utf8.encode eol ++ rest)) := by
    rw [h.eq, Utf8.encode_append, Utf8.encode_append, List.append_assoc, List.append_assoc]
  have hlength : offset + (Utf8.encode l).length = offset + (Utf8.encode kept).length
      + (Utf8.encode blanks).length + (Utf8.encode eol).length := by
    rw [h.eq, Utf8.encode_append, Utf8.encode_append, List.length_append, List.length_append]
    omega
  have hkept : '\n' ∉ kept := by
    rw [h.eq, List.mem_append, List.mem_append, not_or, not_or] at hl
    exact hl.1.1
  rw [hencode, runsFrom_kept hkept h.kept_last fun front hfront => h.exists_behind_cr hfront rest,
    h.runsFrom_behind hrest, hlength]

/-! ### A round of corrections -/

def removal (range : Nat × Nat) : Edit where
  start := range.1
  stop := max range.1 range.2
  replacement := ""
  start_le_stop := Nat.le_max_left _ _

theorem removals_separated {ranges : List (Nat × Nat)} (hle : ∀ r ∈ ranges, r.1 ≤ r.2)
    (h : ranges.Pairwise fun a b => a.2 < b.1) :
    (ranges.map removal).Pairwise fun a b => a.stop < b.start := by
  refine List.pairwise_map.mpr (h.imp_of_mem fun {a b} ha _ hab => ?_)
  have hstop : (removal a).stop = a.2 := Nat.max_eq_right (hle a ha)
  rw [hstop]
  exact hab

theorem splice_removal (before gone after : Bytes) :
    Edit.splice (before ++ gone ++ after) (removal (before.length, before.length + gone.length))
      = before ++ after := by
  have hstop : (removal (before.length, before.length + gone.length)).stop
      = (before ++ gone).length := by
    rw [List.length_append]
    exact Nat.max_eq_right (Nat.le_add_right _ _)
  -- nothing is put in the place of what goes
  have hnone : (removal (before.length, before.length + gone.length)).octets = [] := rfl
  have hstart : (removal (before.length, before.length + gone.length)).start = before.length := rfl
  rw [Edit.splice, hstop, hnone, hstart, List.drop_left, List.append_nil, List.append_assoc,
    List.take_left]

theorem applyEdits_line {l kept blanks eol : List Char} (h : Parts l kept blanks eol)
    {data before rest : Bytes} {es : List Edit}
    (hes : ((lineRuns before.length kept blanks).map removal ++ es).Pairwise
      fun a b => a.stop < b.start)
    (hdata : applyEdits data es = before ++ Utf8.encode l ++ rest) :
    applyEdits data ((lineRuns before.length kept blanks).map removal ++ es)
      = before ++ Utf8.encode (strip l) ++ rest := by
  unfold lineRuns at hes ⊢
  split
  · next hnone =>
    -- there are no blanks, and the line stays as it is
    have hsame : strip l = l := by rw [h.strip_eq, h.eq, hnone, List.append_nil]
    rw [hsame]
    exact hdata
  · next hsome =>
    rw [if_neg hsome] at hes
    have hline : before ++ Utf8.encode l ++ rest = (before ++ Utf8.encode kept)
        ++ Utf8.encode blanks ++ (Utf8.encode eol ++ rest) := by
      rw [h.eq]
      simp only [Utf8.encode_append, List.append_assoc]
    have hlength : before.length + (Utf8.encode kept).length
        = (before ++ Utf8.encode kept).length := List.length_append.symm
    rw [List.map_singleton, List.singleton_append] at hes ⊢
    rw [applyEdits_cons hes, hdata, hline, hlength, splice_removal, h.strip_eq, Utf8.encode_append,
      List.append_assoc, List.append_assoc, List.append_assoc]

section Lines

variable {l kept blanks eol : List Char} {ls : List (List Char)}

theorem runsFrom_joinWith_singleton (h : Parts l kept blanks eol) (hl : '\n' ∉ l) (offset : Nat) :
    runsFrom offset none (Utf8.encode (joinWith '\n' [l])) = lineRuns offset kept blanks := by
  have hfound := runsFrom_line h hl (.inl rfl) offset
  rw [List.append_nil] at hfound
  exact hfound.trans (List.append_nil _)

theorem runsFrom_joinWith_cons (h : Parts l kept blanks eol) (hl : '\n' ∉ l) (hls : ls ≠ [])
    (offset : Nat) :
    runsFrom offset none (Utf8.encode (joinWith '\n' (l :: ls)))
      = lineRuns offset kept blanks
        ++ runsFrom (offset + (Utf8.encode l).length + 1) none (Utf8.encode (joinWith '\n' ls)) := by
  rw [joinWith_cons l hls, Utf8.encode_append, Utf8.encode_cons, Utf8.encodeChar_newline,
    List.singleton_append, runsFrom_line h hl (.inr ⟨_, rfl⟩), runsFrom_newline]

theorem runsFrom_joinWith_eq_nil (hne : ls ≠ []) (hls : ∀ l ∈ ls, '\n' ∉ l)
    (h : ∀ l ∈ ls, strip l = l) (offset : Nat) :
    runsFrom offset none (Utf8.encode (joinWith '\n' ls)) = [] := by
  induction ls generalizing offset with
  | nil => exact absurd rfl hne
  | cons l ls ih =>
    obtain ⟨hl, hrest⟩ := List.forall_mem_cons.mp hls
    obtain ⟨hstrip, hothers⟩ := List.forall_mem_cons.mp h
    obtain ⟨kept, blanks, eol, hparts⟩ := exists_parts l
    -- a line that is as it should be has no blanks at its end
    have hnone : lineRuns offset kept blanks = [] := if_pos (hparts.blanks_eq_nil hstrip)
    by_cases hlast : ls = []
    · rw [hlast, runsFrom_joinWith_singleton hparts hl, hnone]
    · rw [runsFrom_joinWith_cons hparts hl hlast, hnone, List.nil_append]
      exact ih hlast hrest hothers _

/-- **A round of corrections strips the lines.** The octets before them stay as they are. -/
theorem applyEdits_runsFrom (hne : ls ≠ []) (hls : ∀ l ∈ ls, '\n' ∉ l) (before : Bytes) :
    applyEdits (before ++ Utf8.encode (joinWith '\n' ls))
        ((runsFrom before.length none (Utf8.encode (joinWith '\n' ls))).map removal)
      = before ++ Utf8.encode (joinWith '\n' (ls.map strip)) := by
  induction ls generalizing before with
  | nil => exact absurd rfl hne
  | cons l ls ih =>
    obtain ⟨hl, hrest⟩ := List.forall_mem_cons.mp hls
    -- A line is what is kept, the blanks behind it, and an end of line if it has one.
    obtain ⟨kept, blanks, eol, hparts⟩ := exists_parts l
    have hapart := runsFrom_apart before.length none (Utf8.encode (joinWith '\n' (l :: ls)))
      (Nat.le_refl _)
    have hseparated := removals_separated (fun r hr => (hapart.1 r hr).2) hapart.2
    by_cases hlast : ls = []
    · subst hlast
      rw [runsFrom_joinWith_singleton hparts hl] at hseparated ⊢
      -- there are no edits behind those of the last line, and no octets behind it
      have hdone : applyEdits (before ++ Utf8.encode l)
          ((lineRuns before.length kept blanks).map removal ++ [])
            = before ++ Utf8.encode (strip l) ++ [] :=
        applyEdits_line hparts (by rwa [List.append_nil]) (by rw [applyEdits_nil, List.append_nil])
      rw [List.append_nil, List.append_nil] at hdone
      exact hdone
    · rw [runsFrom_joinWith_cons hparts hl hlast, List.map_append] at hseparated ⊢
      -- the other lines come behind this one and its line feed
      have hdata : before ++ Utf8.encode (joinWith '\n' (l :: ls))
          = (before ++ Utf8.encode l ++ [newline]) ++ Utf8.encode (joinWith '\n' ls) := by
        rw [joinWith_cons l hlast, Utf8.encode_append, Utf8.encode_cons, Utf8.encodeChar_newline]
        simp only [List.append_assoc]
      have hlength : before.length + (Utf8.encode l).length + 1
          = (before ++ Utf8.encode l ++ [newline]).length := by
        rw [List.length_append, List.length_append, List.length_singleton]
      have hothers := ih hlast hrest (before ++ Utf8.encode l ++ [newline])
      rw [← hdata, ← hlength, List.append_assoc _ [newline]] at hothers
      have hmap : ls.map strip ≠ [] := fun hnil => hlast (List.map_eq_nil_iff.mp hnil)
      rw [applyEdits_line hparts hseparated hothers, List.map_cons, joinWith_cons _ hmap,
        Utf8.encode_append, Utf8.encode_cons, Utf8.encodeChar_newline, List.append_assoc]

end Lines

/-! ### Texts -/

theorem runs_separated (bs : Bytes) : (runs bs).Pairwise fun a b => a.2 < b.1 :=
  (runsFrom_apart 0 none bs (Nat.le_refl 0)).2

theorem le_of_mem_runs {bs : Bytes} {r : Nat × Nat} (h : r ∈ runs bs) : r.1 ≤ r.2 :=
  ((runsFrom_apart 0 none bs (Nat.le_refl 0)).1 r h).2

/-- **A round of corrections strips the lines of a text.** -/
theorem applyEdits_runs (text : String) :
    applyEdits (Utf8.ofString text) ((runs (Utf8.ofString text)).map removal)
      = Utf8.ofString (mapLines strip text) := by
  have hround := applyEdits_runsFrom (splitLines_ne_nil text.toList)
    (fun l hl => not_mem_of_mem_splitLines hl) []
  have hjoin : joinWith '\n' (splitLines text.toList) = text.toList := joinWith_splitOnChar _ _
  rw [hjoin] at hround
  rw [mapLines, Utf8.ofString_ofList]
  exact hround

theorem runs_eq_nil {text : String} (h : ∀ l ∈ splitLines text.toList, strip l = l) :
    runs (Utf8.ofString text) = [] := by
  have hnone := runsFrom_joinWith_eq_nil (splitLines_ne_nil text.toList)
    (fun l hl => not_mem_of_mem_splitLines hl) h 0
  have hjoin : joinWith '\n' (splitLines text.toList) = text.toList := joinWith_splitOnChar _ _
  rwa [hjoin] at hnone

/-- A text in which nothing is found is not changed by another round. -/
theorem mapLines_strip_of_runs {text : String} (h : runs (Utf8.ofString text) = []) :
    mapLines strip text = text := by
  have hround := applyEdits_runs text
  rw [h, List.map_nil, applyEdits_nil] at hround
  exact (Utf8.ofString_injective hround).symm

/-- **What two rounds come to**, and that a third finds nothing. -/
theorem mapLines_strip_strip (text : String) :
    mapLines strip (mapLines strip text) = mapLines tidy text := by
  rw [mapLines_mapLines fun l hl hmem => hl (mem_of_mem_strip hmem), funext strip_strip]

theorem runs_tidy (text : String) : runs (Utf8.ofString (mapLines tidy text)) = [] := by
  refine runs_eq_nil fun l hl => ?_
  rw [splitLines_mapLines fun l hl hmem => hl (mem_of_mem_tidy hmem)] at hl
  obtain ⟨line, -, rfl⟩ := List.mem_map.mp hl
  exact strip_tidy line

/-- Taking blanks away does not make up a word that has neither line breaks nor blanks next to
them. -/
theorem occursIn_strip {w : List Char} (hnewline : '\n' ∉ w) (hreturn : '\r' ∉ w) {text : String}
    (h : occursIn w (mapLines strip text).toList = true) : occursIn w text.toList = true := by
  rw [occursIn_iff] at h ⊢
  rw [mapLines, String.toList_ofList] at h
  have hne : (splitLines text.toList).map strip ≠ [] := fun hnil =>
    splitLines_ne_nil _ (List.map_eq_nil_iff.mp hnil)
  obtain ⟨part, hpart, hinfix⟩ := exists_infix_of_joinWith hne hnewline h
  obtain ⟨l, hl, rfl⟩ := List.mem_map.mp hpart
  obtain ⟨kept, blanks, eol, hparts⟩ := exists_parts l
  -- the word lies in what is kept, as it has no carriage return
  have hkept : w <:+: kept := by
    rw [hparts.strip_eq] at hinfix
    rcases hparts.eol_eq with rfl | rfl
    · rwa [List.append_nil] at hinfix
    · rcases infix_append_cons hreturn hinfix with hinfix | hinfix
      · exact hinfix
      · rw [List.infix_nil.mp hinfix]
        exact List.nil_infix
  have hline : w <:+: l := by
    rw [hparts.eq, List.append_assoc]
    exact hkept.trans (List.prefix_append kept _).isInfix
  have hjoin : joinWith '\n' (splitLines text.toList) = text.toList := joinWith_splitOnChar _ _
  rw [← hjoin]
  exact hline.trans (infix_joinWith_of_mem '\n' hl)

end Rules.TrailingWhitespace

end Lintel
