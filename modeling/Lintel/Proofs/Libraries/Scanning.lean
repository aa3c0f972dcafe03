import Lintel.Proofs.Yaml.Names
import Lintel.Proofs.Yaml.Steps

/-!
# Scanning a file of pages

Each page of a file is a block with remarks in front of it. To the scanner the remarks are a gap. So
the tokens of a file are those of one mapping, with the entries of all pages
(`Documents.scan_file`).
-/

namespace Lintel

open Yaml

/-! ### Characters of a document -/

namespace Yaml

/-- The characters of lines, each with its end. -/
def lineChars (lines : List String) : List Char :=
  lines.flatMap fun line => line.toList ++ ['\n']

theorem lineChars_append (a b : List String) : lineChars (a ++ b) = lineChars a ++ lineChars b :=
  List.flatMap_append

theorem lineChars_eq_gapChars (lines : List String) :
    lineChars lines = gapChars (lines.map String.toList) 0 := by
  rw [lineChars, gapChars, List.replicate_zero, List.append_nil, List.flatMap_map]

theorem lineChars_cons (line : String) (lines : List String) :
    lineChars (line :: lines) = line.toList ++ '\n' :: lineChars lines := by
  rw [lineChars, List.flatMap_cons, List.append_assoc]
  rfl

/-- Lines with line feeds between them, and one at the end. -/
theorem toList_intercalate_append {lines : List String} (h : lines ≠ []) :
    ("\n".intercalate lines).toList ++ ['\n'] = lineChars lines := by
  have hfeed : "\n".toList = ['\n'] := by decide
  rw [String.toList_intercalate, hfeed]
  induction lines with
  | nil => exact absurd rfl h
  | cons line lines ih =>
    rw [lineChars_cons]
    cases lines with
    -- the last line: its line feed is the one at the end
    | nil => rw [List.map_singleton, List.intercalate_singleton]; rfl
    | cons next lines =>
      rw [← ih (List.cons_ne_nil _ _), List.map_cons, List.map_cons, List.intercalate_cons_cons]
      simp only [List.append_assoc, List.cons_append, List.nil_append]

end Yaml

namespace Documents

variable {p : Page} {ps : List Page}

/-! ### The text of a page -/

theorem Page.IsProper.isName_key (h : p.IsProper) : IsName p.key := h.key.isName

theorem Page.IsProper.isName_inner (h : p.IsProper) : IsName p.inner := h.inner.isName

theorem Page.Printable.isPlainAscii {s : String} (h : Printable s) :
    ∀ c ∈ s.toList, isPlainAscii c = true := fun c hc => by
  rw [Yaml.isPlainAscii, decide_eq_true (h c hc).1, decide_eq_true (h c hc).2]
  rfl

theorem Page.IsRemark.isRemark {line : String} (h : Page.IsRemark line) :
    Yaml.IsRemark line.toList := by
  refine ⟨h.start.imp (fun h => by rw [h]; rfl) id, fun c hc => ?_⟩
  exact isBreak_of_isPlainAscii (h.printable.isPlainAscii c hc)

/-- An element of a list: a text behind a hyphen. -/
def elementChars (x : String) : List Char :=
  gapChars [] 2 ++ '-' :: ' ' :: ((writeText false 4 4 x).toList ++ ['\n'])

def Page.chars (p : Page) : List Char :=
  p.key.toList ++ ':' :: '\n' :: (gapChars [] 2
    ++ (p.inner.toList ++ ':' :: '\n' :: p.texts.flatMap elementChars))

theorem lineChars_elementLines (xs : List String) :
    lineChars (elementLines 2 xs) = xs.flatMap elementChars := by
  rw [lineChars, elementLines, List.flatMap_map]
  refine congrArg (xs.flatMap ·) (funext fun x => ?_)
  have hblanks : (spaces 2).toList = gapChars [] 2 := by decide
  have hdash : "- ".toList = ['-', ' '] := by decide
  rw [String.toList_append, String.toList_append, hblanks, hdash, elementChars]
  simp only [List.append_assoc, List.cons_append, List.nil_append]

theorem lines_block (h : p.IsProper) :
    p.block.lines 0 = (p.key ++ ":") :: (spaces 2 ++ p.inner ++ ":") :: elementLines 2 p.texts := by
  -- the list is not empty, so it has lines of its own below its key
  have hinner : entryLines 2 [(p.inner, .texts p.texts)]
      = (spaces 2 ++ p.inner ++ ":") :: elementLines 2 p.texts := by
    rw [entryLines, if_pos h.isName_inner.isSimpleKey, h.isName_inner.writeText, entryLines,
      List.append_nil]
    cases htexts : p.texts with
    | nil => exact absurd htexts h.texts
    | cons x xs => rfl
  have hempty : spaces 0 = "" := rfl
  rw [Page.block, Block.lines, entryLines, if_pos h.isName_key.isSimpleKey,
    h.isName_key.writeText, entryLines, List.append_nil, hempty, String.empty_append]
  simp only [hinner]

/-- The characters of the block of a page, with the line feed at its end. -/
theorem toList_write (h : p.IsProper) : (builtin.write p.block).toList = p.chars := by
  have hne : p.block.lines 0 ≠ [] := by
    rw [lines_block h]
    exact List.cons_ne_nil _ _
  have hblanks : (spaces 2).toList = gapChars [] 2 := by decide
  have hcolon : ":".toList = [':'] := by decide
  have hfeed : "\n".toList = ['\n'] := by decide
  -- The block is written line by line; each line is spelled out in characters.
  change (p.block.render ++ "\n").toList = p.chars
  rw [String.toList_append, hfeed, Block.render, toList_intercalate_append hne, lines_block h,
    lineChars_cons, lineChars_cons, lineChars_elementLines, Page.chars, String.toList_append,
    String.toList_append, String.toList_append, hblanks, hcolon]
  simp only [List.append_assoc, List.cons_append, List.nil_append]

theorem toList_withoutFeeds {s : String} {cs : List Char} (h : s.toList = cs ++ ['\n'])
    (hend : EndsLine cs) : (withoutFeeds s).toList = cs := by
  -- in front of the line feed stands something else, where dropping stops
  obtain ⟨ch, hlast, hne⟩ := hend
  have hreverse : cs.reverse.head? = some ch := by rw [List.head?_reverse, hlast]
  obtain ⟨more, hmore⟩ := List.head?_eq_some_iff.mp hreverse
  have hdrop : (ch :: more).dropWhile (· = '\n') = ch :: more := by
    rw [List.dropWhile_cons, decide_eq_false hne]
    rfl
  rw [withoutFeeds, String.toList_ofList, h, List.reverse_append, hmore]
  change ((ch :: more).dropWhile (· = '\n')).reverse = cs
  rw [hdrop, ← hmore, List.reverse_reverse]

/-- The last line of a page is that of its last text. -/
theorem exists_chars (h : p.IsProper) : ∃ cs, p.chars = cs ++ ['\n'] ∧ EndsLine cs := by
  obtain ⟨xs, x, htexts⟩ : ∃ xs x, p.texts = xs ++ [x] :=
    ⟨_, _, (List.dropLast_concat_getLast h.texts).symm⟩
  refine ⟨(p.key.toList ++ ':' :: '\n' :: (gapChars [] 2 ++ (p.inner.toList ++ ':' :: '\n'
    :: (xs.flatMap elementChars ++ (gapChars [] 2 ++ ['-', ' '])))))
      ++ (writeText false 4 4 x).toList, ?_, (endsLine_writeText false 4 4 x).append _⟩
  -- The last text of the page is set apart, since the line feed stands after it.
  rw [Page.chars, htexts, List.flatMap_append, List.flatMap_singleton, elementChars]
  simp only [List.append_assoc, List.cons_append, List.nil_append]

/-- **What is written for a page.** -/
theorem lineChars_lines (h : p.IsProper) :
    lineChars (builtin.lines p) = gapChars (p.remarks.map String.toList) 0 ++ p.chars := by
  obtain ⟨cs, hchars, hend⟩ := exists_chars h
  have hwritten : (withoutFeeds (builtin.write p.block)).toList = cs :=
    toList_withoutFeeds ((toList_write h).trans hchars) hend
  rw [lines, lineChars_append, lineChars_eq_gapChars p.remarks, lineChars_cons, hwritten, hchars]
  rfl

/-- What is written for pages. -/
def pageChars (ps : List Page) : List Char :=
  ps.flatMap fun p => gapChars (p.remarks.map String.toList) 0 ++ p.chars

/-- **What is written in a file.** -/
theorem toList_file (hne : ps ≠ []) (h : ∀ p ∈ ps, p.IsProper) :
    (builtin.file ps).toList = pageChars ps := by
  -- every page has a line at least, the one of its block
  have hlines : ps.flatMap builtin.lines ≠ [] := by
    obtain ⟨p, ps, rfl⟩ := List.exists_cons_of_ne_nil hne
    rw [List.flatMap_cons, lines, List.append_assoc]
    exact List.append_ne_nil_of_right_ne_nil _ (List.cons_ne_nil _ _)
  have hfeed : "\n".toList = ['\n'] := by decide
  rw [file, String.toList_append, hfeed, toList_intercalate_append hlines, lineChars,
    List.flatMap_assoc, pageChars, List.flatMap_def, List.flatMap_def]
  exact congrArg List.flatten (List.map_congr_left fun p hp => lineChars_lines (h p hp))

/-! ### The tokens of a page -/

def elementTokens (xs : List String) : List Token :=
  xs.flatMap fun x => [.dash, .scalar x (fitsPlain x.toList)]

def Page.tokens (p : Page) : List Token :=
  [.key, .scalar p.key true, .value, .openMap, .key, .scalar p.inner true, .value]
    ++ elementTokens p.texts ++ [.close]

def tokens (ps : List Page) : List Token :=
  .openMap :: ps.flatMap Page.tokens ++ [.close]

section Scanning

variable {l : Layout} {ts : List Token} {outer : List Int} {rest : List Char}
  {lines : List (List Char)}

/-- **Elements are scanned** one after the other. -/
theorem reaches_elements (x : String) (xs : List String) (hl : l.Holds ts 2 outer)
    (h : l.LeadsTo 2 ('-' :: ' ' :: ((writeText false 4 4 x).toList
      ++ '\n' :: (xs.flatMap elementChars ++ (gapChars lines 0 ++ rest)))))
    (hlines : ∀ line ∈ lines, Yaml.IsRemark line) (hrest : StartsContent rest)
    (hmark : NoMark 0 rest) :
    ∃ l', l.Reaches l' ∧ l'.Holds ((elementTokens (x :: xs)).reverse ++ ts) 2 outer ∧
      l'.LeadsTo 0 rest := by
  -- The last element leads to what stands behind the list, any other one to the next dash.
  induction xs generalizing x l ts with
  | nil =>
    obtain ⟨l₁, hreach₁, hl₁, h₁⟩ := Layout.reaches_dash hl h rfl (by decide)
      (startsContent_writeText false 4 4 x _)
    obtain ⟨l₂, hreach₂, hl₂, h₂⟩ := Layout.reaches_text hl₁ h₁ (by decide) (by decide) (by decide)
      (by decide) (by decide) hlines hrest hmark (by decide)
    exact ⟨l₂, hreach₁.trans hreach₂, hl₂, h₂⟩
  | cons y xs ih =>
    rw [List.flatMap_cons, elementChars] at h
    simp only [List.append_assoc, List.cons_append, List.nil_append] at h
    obtain ⟨l₁, hreach₁, hl₁, h₁⟩ := Layout.reaches_dash hl h rfl (by decide)
      (startsContent_writeText false 4 4 x _)
    -- The dash of the next element is content at the left margin, and it ends the text before it.
    have hnext : StartsContent ('-' :: ' ' :: ((writeText false 4 4 y).toList
        ++ '\n' :: (xs.flatMap elementChars ++ (gapChars lines 0 ++ rest)))) := by
      intro ch hch
      cases hch
      decide
    obtain ⟨l₂, hreach₂, hl₂, h₂⟩ := Layout.reaches_text hl₁ h₁ (by decide) (by decide) (by decide)
      (by decide) (by decide) (fun line hline => absurd hline List.not_mem_nil) hnext
      (fun h => absurd h (by decide)) (by decide)
    obtain ⟨l₃, hreach₃, hl₃, h₃⟩ := ih y hl₂ h₂
    refine ⟨l₃, hreach₁.trans (hreach₂.trans hreach₃), ?_, h₃⟩
    have htokens : (elementTokens (x :: y :: xs)).reverse ++ ts
        = (elementTokens (y :: xs)).reverse ++ .scalar x (fitsPlain x.toList) :: .dash :: ts := by
      rw [elementTokens, List.flatMap_cons]
      simp [elementTokens]
    rw [htokens]
    exact hl₃

/-- Where the pages of a file begin: the outermost mapping is open, or opens there. -/
def AtPage (indent : Int) (outer : List Int) : Prop :=
  indent = -1 ∧ outer = [] ∨ indent = 0 ∧ outer = [-1]

def openingOf (indent : Int) : List Token :=
  if indent < 0 then [.openMap] else []

theorem reverse_openingOf (indent : Int) : (openingOf indent).reverse = openingOf indent := by
  unfold openingOf
  split
  · rfl
  · rfl

/-- **A page is scanned** up to what comes behind the gap after it. -/
theorem reaches_page {indent : Int} (hp : p.IsProper) (hl : l.Holds ts indent outer)
    (hindent : AtPage indent outer) (h : l.LeadsTo 0 (p.chars ++ (gapChars lines 0 ++ rest)))
    (hlines : ∀ line ∈ lines, Yaml.IsRemark line) (hrest : StartsContent rest)
    (hmark : NoMark 0 rest) :
    ∃ l', l.Reaches l' ∧ l'.Holds (p.tokens.reverse ++ (openingOf indent ++ ts)) 0 [-1] ∧
      l'.LeadsTo 0 rest := by
  have hleft : indent ≤ 0 := by
    rcases hindent with ⟨rfl, -⟩ | ⟨rfl, -⟩
    · decide
    · decide
  have houter : (if indent < 0 then indent :: outer else outer) = [-1] := by
    rcases hindent with ⟨rfl, rfl⟩ | ⟨rfl, rfl⟩
    · rfl
    · rfl
  obtain ⟨x, xs, htexts⟩ := List.exists_cons_of_ne_nil hp.texts
  rw [Page.chars, htexts, List.flatMap_cons, elementChars] at h
  simp only [List.append_assoc, List.cons_append, List.nil_append] at h
  -- the outer key
  obtain ⟨l₁, hreach₁, hl₁, h₁⟩ := Layout.reaches_key hl h hp.isName_key.isKey hleft
    (fun line hline => absurd hline List.not_mem_nil)
    (fun ch hch => (hp.isName_inner.head hch).1)
  change l₁.Holds (_ :: _ :: _ :: (openingOf indent ++ ts)) 0
    (if indent < 0 then indent :: outer else outer) at hl₁
  rw [houter] at hl₁
  -- the inner key, which opens a mapping of its own
  have hdash : StartsContent ('-' :: ' ' :: ((writeText false 4 4 x).toList
      ++ '\n' :: (xs.flatMap elementChars ++ (gapChars lines 0 ++ rest)))) := by
    intro ch hch
    cases hch
    decide
  obtain ⟨l₂, hreach₂, hl₂, h₂⟩ := Layout.reaches_key hl₁ h₁ hp.isName_inner.isKey (by decide)
    (fun line hline => absurd hline List.not_mem_nil) hdash
  -- the texts, and the end of the inner mapping
  obtain ⟨l₃, hreach₃, hl₃, h₃⟩ := reaches_elements x xs hl₂ h₂ hlines hrest hmark
  obtain ⟨l₄, hreach₄, hl₄, h₄⟩ := Layout.reaches_close hl₃ h₃ (by decide)
  refine ⟨l₄, hreach₁.trans (hreach₂.trans (hreach₃.trans hreach₄)), ?_, h₄⟩
  have htokens : p.tokens.reverse ++ (openingOf indent ++ ts)
      = .close :: ((elementTokens (x :: xs)).reverse ++ .value
        :: .scalar (String.ofList p.inner.toList) true :: .key
        :: ([.openMap] ++ .value :: .scalar (String.ofList p.key.toList) true :: .key
          :: (openingOf indent ++ ts))) := by
    rw [Page.tokens, htexts, String.ofList_toList, String.ofList_toList]
    simp
  rw [htokens]
  exact hl₄

/-- **Pages are scanned** up to the end of the file. -/
theorem scans_pages {indent : Int} (p : Page) (ps : List Page) (hl : l.Holds ts indent outer)
    (hindent : AtPage indent outer) (h : l.LeadsTo 0 (p.chars ++ pageChars ps))
    (hproper : ∀ q ∈ p :: ps, q.IsProper) :
    l.Scans (ts.reverse ++ (openingOf indent ++ ((p :: ps).flatMap Page.tokens ++ [.close]))) := by
  -- The last page is followed by the end of the text, any other one by remarks and a name. Only
  -- the first one opens the mapping.
  induction ps generalizing p l ts indent outer with
  | nil =>
    have hlast : l.LeadsTo 0 (p.chars ++ (gapChars [] 0 ++ [])) := h
    obtain ⟨l', hreach, hl', h'⟩ := reaches_page (hproper p List.mem_cons_self) hl hindent hlast
      (fun line hline => absurd hline List.not_mem_nil) nofun nofun
    have hscans := hreach _ (Layout.scans_end hl' h')
    rw [List.reverse_append, List.reverse_append, List.reverse_reverse, reverse_openingOf] at hscans
    simpa using hscans
  | cons q ps ih =>
    have hq := hproper q (List.mem_cons_of_mem _ List.mem_cons_self)
    rw [pageChars, List.flatMap_cons, List.append_assoc] at h
    have hhead : ∀ ch, (q.chars ++ pageChars ps).head? = some ch →
        (ch ≠ ' ' ∧ ch ≠ '#' ∧ isBreak ch = false) ∧ ch ≠ '-' ∧ ch ≠ '.' := by
      intro ch hch
      rw [Page.chars, List.append_assoc] at hch
      exact hq.isName_key.head hch
    obtain ⟨l', hreach, hl', h'⟩ := reaches_page (hproper p List.mem_cons_self) hl hindent h
      (fun line hline => by
        obtain ⟨remark, hremark, rfl⟩ := List.mem_map.mp hline
        exact (hq.remarks remark hremark).isRemark)
      (fun ch hch => (hhead ch hch).1) (fun _ ch hch => (hhead ch hch).2)
    have hscans := hreach _ (ih q hl' (.inr ⟨rfl, rfl⟩) h'
      fun q' hq' => hproper q' (List.mem_cons_of_mem _ hq'))
    rw [List.reverse_append, List.reverse_append, List.reverse_reverse, reverse_openingOf] at hscans
    simpa [openingOf] using hscans

end Scanning

/-! ### Characters of a file -/

theorem inked_remarks {lines : List String} (h : ∀ line ∈ lines, Page.IsRemark line) (n : Nat) :
    Inked (gapChars (lines.map String.toList) n) := by
  intro ch hch
  -- a line, its line feed, or the indentation behind them all
  rcases List.mem_append.mp hch with hch | hch
  · obtain ⟨line, hline, hch⟩ := List.mem_flatMap.mp hch
    obtain ⟨remark, hremark, rfl⟩ := List.mem_map.mp hline
    rcases List.mem_append.mp hch with hch | hch
    · exact .inr ((h remark hremark).printable.isPlainAscii ch hch)
    · exact .inl (List.mem_singleton.mp hch)
  · rw [List.eq_of_mem_replicate hch]
    exact .inr (by decide)

theorem inked_chars (h : p.IsProper) : Inked p.chars := by
  have hkey : Inked p.key.toList := fun ch hch => .inr (h.isName_key.isKey.word.plain ch hch).1
  have hinner : Inked p.inner.toList := fun ch hch =>
    .inr (h.isName_inner.isKey.word.plain ch hch).1
  -- Marks and line feeds apart, a page is made of its keys and of written texts.
  have hfeed : ∀ {cs}, Inked cs → Inked (':' :: '\n' :: cs) := by
    intro cs hcs ch hch
    rcases List.mem_cons.mp hch with rfl | hch
    · exact .inr (by decide)
    · rcases List.mem_cons.mp hch with rfl | hch
      · exact .inl rfl
      · exact hcs ch hch
  have hnone : ∀ line ∈ ([] : List String), Page.IsRemark line := fun line hline =>
    absurd hline List.not_mem_nil
  have hblanks : Inked (gapChars [] 2) := inked_remarks hnone 2
  have helements : Inked (p.texts.flatMap elementChars) := by
    intro ch hch
    obtain ⟨x, -, hch⟩ := List.mem_flatMap.mp hch
    have hend : Inked ['\n'] := fun ch hch => .inl (List.mem_singleton.mp hch)
    exact hblanks.append ((((inked_writeText false 4 4 x).append hend).cons (by decide)).cons
      (by decide)) ch hch
  exact hkey.append (hfeed (hblanks.append (hinner.append (hfeed helements))))

theorem inked_pageChars (h : ∀ p ∈ ps, p.IsProper) : Inked (pageChars ps) := by
  intro ch hch
  obtain ⟨p, hp, hch⟩ := List.mem_flatMap.mp hch
  exact (inked_remarks (h p hp).remarks 0).append (inked_chars (h p hp)) ch hch

theorem isAllowed_of_inked {cs : List Char} (h : Inked cs) : cs.all isAllowed = true := by
  rw [List.all_eq_true]
  intro ch hch
  rcases h ch hch with rfl | hplain
  · decide
  · obtain ⟨hlow, hhigh⟩ := toNat_of_isPlainAscii hplain
    simp [isAllowed, hlow, hhigh]

/-- What is printable ASCII or a line feed is no mark of the order of octets. -/
theorem head?_ne_byteOrderMark {cs : List Char} (h : Inked cs) :
    cs.head? ≠ some byteOrderMark := by
  intro hhead
  rcases h _ (List.mem_of_head? hhead) with heq | hplain
  · exact absurd heq (by decide)
  · exact absurd hplain (by decide)

/-- **The tokens of a file** are those of a mapping. The remarks leave nothing behind. -/
theorem scan_file (hne : ps ≠ []) (h : ∀ p ∈ ps, p.IsProper) :
    scan (builtin.file ps).toList = ⟨tokens ps, none⟩ := by
  have htext := toList_file hne h
  have hinked : Inked (builtin.file ps).toList := htext ▸ inked_pageChars h
  rw [scan, if_pos (isAllowed_of_inked hinked)]
  let l : Layout := Layout.start (builtin.file ps).toList
  have hcursor : l.cursor = ⟨(builtin.file ps).toList, 0, 0, 0⟩ :=
    if_neg (head?_ne_byteOrderMark hinked)
  obtain ⟨p, more, rfl⟩ := List.exists_cons_of_ne_nil hne
  have hp := h p List.mem_cons_self
  -- The first remarks are a gap in front of the first name.
  have hleads : l.LeadsTo 0 (p.chars ++ pageChars more) := by
    refine ⟨p.remarks.map String.toList,
      ⟨fun line hline => ?_, fun ch hch => ?_, 0, ?_, ?_⟩, .inl rfl,
      fun k hk => absurd hk List.not_mem_nil⟩
    · obtain ⟨remark, hremark, rfl⟩ := List.mem_map.mp hline
      exact (hp.remarks remark hremark).isRemark
    · rw [Page.chars, List.append_assoc] at hch
      exact (hp.isName_key.head hch).1
    · rw [hcursor, htext, pageChars, List.flatMap_cons, List.append_assoc]
      rfl
    · rw [hcursor]
      split
      · rfl
      · rfl
  -- From the start of a file nothing is open, so the pages can be scanned one by one.
  have hscans := scans_pages p more (l := l) ⟨rfl, rfl, rfl, rfl, rfl⟩ (.inl ⟨rfl, rfl⟩) hleads h
  exact hscans _ (by rw [hcursor]; exact Nat.lt_succ_self _)

end Documents

end Lintel
