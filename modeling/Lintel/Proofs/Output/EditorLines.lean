import Lintel.Output.Lines
import Lintel.Proofs.Engine.Keeping
import Lintel.Proofs.Engine.Library
import Lintel.Proofs.Engine.Origin
import Lintel.Proofs.Text.Split
import Lintel.Proofs.Tree.Failure
import Lintel.Scripted

/-!
# The lines that editors read

The form of a report that editors read is meant to have one line for each open issue. A line holds
the path of the source, the place and the weight of the issue, the name of the rule, and the
message. All of these are on one line, with one exception: the rule on text that does not parse
passes on the message of the parser, and this quotes a piece of the text (`Tree.SpansLines`). The
message of such an issue goes on in the next line.

So there are as many lines as open issues unless a tree of the parser fails at something that goes
over several lines, and then there are more (`flycheck_lines`). `torn_lines` is the smallest
example: a text of two lines that the parser cannot place at all.
-/

namespace Lintel

variable {σ : Type}

def Source.OnOneLine (s : Source) : Prop :=
  ∀ path, s.path = some path → '\n' ∉ path.toList

/-- The issue tells why a text does not parse, in the words for a tree of the parser that fails at
something over several lines. -/
def Issue.BreaksLine (parser : Parser σ) (i : Issue) : Prop :=
  i.rule = Rules.parseRuleName ∧ ∃ text memory t f, (parser text memory).answer = .ok (some t) ∧
    t.failure = some f ∧ t.SpansLines ∧ i.message = f.message

/-! ### Texts as lines -/

theorem splitText_of_not_mem {sep : Char} {s : String} (h : sep ∉ s.toList) :
    splitText sep s = [s] := by
  rw [splitText, splitOnChar_of_not_mem h, List.map_singleton, String.ofList_toList]

theorem length_splitText (sep : Char) (s : String) :
    (splitText sep s).length = s.toList.count sep + 1 := by
  rw [splitText, List.length_map, length_splitOnChar]

theorem length_flatMap_splitText (sep : Char) (ls : List String) :
    ls.length ≤ (ls.flatMap (splitText sep)).length ∧
      ((∃ l ∈ ls, sep ∈ l.toList) → ls.length < (ls.flatMap (splitText sep)).length) := by
  induction ls with
  | nil => exact ⟨Nat.le_refl _, fun ⟨l, hl, _⟩ => absurd hl List.not_mem_nil⟩
  | cons first ls ih =>
    obtain ⟨hle, hlt⟩ := ih
    rw [List.flatMap_cons, List.length_append, length_splitText, List.length_cons]
    -- a text has one part at least; with a separator it has two
    refine ⟨by omega, ?_⟩
    rintro ⟨l, hl, hmem⟩
    rcases List.mem_cons.mp hl with rfl | hl
    · have hpos := List.count_pos_iff.mpr hmem
      omega
    · have hmore := hlt ⟨l, hl, hmem⟩
      omega

theorem flatMap_splitText_of_not_mem {sep : Char} {ls : List String}
    (h : ∀ l ∈ ls, sep ∉ l.toList) : ls.flatMap (splitText sep) = ls := by
  induction ls with
  | nil => rfl
  | cons l ls ih =>
    rw [List.flatMap_cons, splitText_of_not_mem (h l List.mem_cons_self),
      ih fun l' hl' => h l' (List.mem_cons_of_mem _ hl'), List.singleton_append]

/-- A number is written in digits, behind a sign at most. -/
theorem newline_not_mem_toString (n : Int) : '\n' ∉ (toString n).toList := by
  have hdigits : ∀ k : Nat, '\n' ∉ (toString k).toList := by
    intro k hmem
    have hk : (toString k).toList = Nat.toDigits 10 k := String.toList_ofList
    rw [hk] at hmem
    have hdigit := Nat.isDigit_of_mem_toDigits (by decide) (by decide) hmem
    exact absurd hdigit (by decide)
  -- the sign is the only character that is no digit
  cases n with
  | ofNat k => exact hdigits k
  | negSucc k =>
    have hk : toString (Int.negSucc k) = "-" ++ toString (k + 1) := rfl
    rw [hk, String.toList_append, List.mem_append, not_or]
    exact ⟨by decide, hdigits (k + 1)⟩

theorem Location.newline_not_mem_text (l : Location) : '\n' ∉ l.text.toList := by
  simp only [Location.text, String.toList_append, List.mem_append, not_or]
  exact ⟨⟨newline_not_mem_toString _, by decide⟩, newline_not_mem_toString _⟩

namespace Output

def writtenLines (s : String) : List String :=
  if s.isEmpty then [] else splitText '\n' s

theorem splitText_ofLines {ls : List String} (h : ls ≠ []) :
    splitText '\n' (ofLines ls) = ls.flatMap (splitText '\n') := by
  induction ls with
  | nil => exact absurd rfl h
  | cons l ls ih =>
    cases ls with
    | nil => simp [ofLines]
    | cons next ls =>
      have hcut : (ofLines (l :: next :: ls)).toList
          = l.toList ++ '\n' :: (ofLines (next :: ls)).toList := by
        rw [ofLines, String.intercalate_cons_cons, String.toList_append, String.toList_append,
          List.append_assoc]
        rfl
      -- the line feed between two lines is where the text is cut
      rw [splitText, hcut, splitOnChar_append, List.map_append, List.flatMap_cons,
        ← ih (List.cons_ne_nil _ _)]
      rfl

theorem ofLines_ne_empty {l : String} (h : l ≠ "") (ls : List String) : ofLines (l :: ls) ≠ "" := by
  cases ls with
  | nil => simpa [ofLines] using h
  | cons next ls =>
    -- With a second line there is at least the line feed between the two.
    intro hempty
    rw [ofLines, String.intercalate_cons_cons] at hempty
    have hlist := congrArg String.toList hempty
    simp at hlist

theorem writtenLines_ofLines {ls : List String} (h : ∀ l ∈ ls, l ≠ "") :
    writtenLines (ofLines ls) = ls.flatMap (splitText '\n') := by
  cases ls with
  | nil => rfl
  | cons l ls =>
    -- Empty output is written as no line at all, which is not the case here.
    have hne : ¬(ofLines (l :: ls)).isEmpty = true := by
      rw [String.isEmpty_iff]
      exact ofLines_ne_empty (h l List.mem_cons_self) ls
    rw [writtenLines, if_neg hne, splitText_ofLines (List.cons_ne_nil _ _)]

/-! ### Lines of issues -/

theorem editorLine_ne_empty (path : String) (i : Issue) : editorLine path i ≠ "" := by
  intro h
  have hlist := congrArg String.toList h
  simp [editorLine] at hlist

/-- **Only the message may break the line of an issue.** -/
theorem newline_mem_editorLine_iff {path : String} {i : Issue} (hpath : '\n' ∉ path.toList)
    (hrule : '\n' ∉ i.rule.toList) :
    '\n' ∈ (editorLine path i).toList ↔ '\n' ∈ i.message.toList := by
  have hsymbol : '\n' ∉ i.severity.symbol.toList := by cases i.severity <;> decide
  have hlocation := i.location.newline_not_mem_text
  simp [editorLine, hpath, hrule, hsymbol, hlocation]

theorem newline_not_mem_sourceName {s : SourceReport} (h : s.source.OnOneLine) :
    '\n' ∉ (sourceName s).toList := by
  unfold sourceName shownPath
  -- A source without a path is shown as memory.
  split
  · next path hpath =>
    split
    · decide
    · exact h path hpath
  · decide

theorem writtenLines_flycheck (r : Report) :
    writtenLines (flycheck r) = (editorLines r).flatMap (splitText '\n') := by
  refine writtenLines_ofLines fun l hl => ?_
  obtain ⟨s, -, hl⟩ := List.mem_flatMap.mp hl
  obtain ⟨i, -, rfl⟩ := List.mem_map.mp hl
  exact editorLine_ne_empty _ _

end Output

/-! ### Words of the library's rules -/

namespace Rules

theorem newline_not_mem_message {p : RuleProfile} {c : RuleConfig} {v : View} {start stop : Int}
    {message : String} {correctable : Option Bool} {remedy : Option Remedy}
    (hdescription : '\n' ∉ p.description.toList) (hmessage : '\n' ∉ message.toList) :
    '\n' ∉ (Rule.issueAt p c v start stop message correctable remedy).message.toList := by
  unfold Rule.issueAt
  simp only
  split
  · exact hdescription
  · exact hmessage

theorem newline_not_mem_fullName {r : Rule σ} (hr : r.kind ∈ shipped) :
    '\n' ∉ r.fullName.toList := by
  obtain ⟨kind, config⟩ := r
  simp only [shipped, List.mem_cons, List.not_mem_nil, or_false] at hr
  -- five kinds, whose names are fixed
  rcases hr with rfl | rfl | rfl | rfl | rfl
  · exact show '\n' ∉ Unparsable.profile.fullName.toList by decide
  · exact show '\n' ∉ EmptyExpression.profile.fullName.toList by decide
  · exact show '\n' ∉ RedundantParentheses.profile.fullName.toList by decide
  · exact show '\n' ∉ AsciiIdentifiers.profile.fullName.toList by decide
  · exact show '\n' ∉ TrailingWhitespace.profile.fullName.toList by decide

/-- **The library's rules speak in one line**, but for the one that passes on why a text does not
parse. -/
theorem failure_of_newline_mem {r : Rule σ} (hr : r.kind ∈ shipped) {v : View} {i : Issue}
    (h : r.Finds v i) (hline : '\n' ∈ i.message.toList) :
    i.rule = parseRuleName ∧
      ∃ p f, v.parsed = .ok p ∧ p.failure = some f ∧ i.message = f.message := by
  obtain ⟨kind, config⟩ := r
  obtain ⟨memory, found, hans, hi⟩ := h
  simp only [shipped, List.mem_cons, List.not_mem_nil, or_false] at hr
  rcases hr with rfl | rfl | rfl | rfl | rfl
  · -- text that does not parse
    change (v.parsed.map fun p => some (Unparsable.find config v p)) = _ at hans
    cases hp : v.parsed with
    | error f =>
      rw [hp] at hans
      cases hans
    | ok p =>
      rw [hp] at hans
      cases hans
      unfold Unparsable.find at hi
      split at hi
      · cases hi
      · next f hf =>
        obtain rfl := List.mem_singleton.mp hi
        refine ⟨show Unparsable.profile.fullName = parseRuleName by decide, p, f, rfl, hf, ?_⟩
        -- in the place of an empty message there would be a description, on one line
        by_cases hempty : f.message.isEmpty = true
        · refine absurd hline (newline_not_mem_message (by decide) ?_)
          rw [String.isEmpty_iff.mp hempty]
          decide
        · exact if_neg hempty
  · -- empty expressions
    obtain ⟨p, -, rfl⟩ := exists_of_detectNodes hans
    obtain ⟨n, -, rfl⟩ := List.mem_map.mp hi
    exact absurd hline (newline_not_mem_message (by decide) (by decide))
  · -- parentheses
    obtain ⟨p, -, rfl⟩ := exists_of_detectNodes hans
    obtain ⟨n, -, rfl⟩ := List.mem_map.mp hi
    exact absurd hline (newline_not_mem_message (by decide) (by decide))
  · -- identifiers
    obtain ⟨p, -, rfl⟩ := exists_of_detectNodes hans
    obtain ⟨n, -, rfl⟩ := List.mem_map.mp hi
    exact absurd hline (newline_not_mem_message (by decide) (by decide))
  · -- blanks
    cases hans
    obtain ⟨range, -, rfl⟩ := List.mem_map.mp hi
    exact absurd hline (newline_not_mem_message (by decide) (by decide))

end Rules

namespace Engine

variable {e : Engine σ} {ac : Bool}

/-- What rules of the library say is on one line, unless it breaks the line. -/
def InWords (parser : Parser σ) (i : Issue) : Prop :=
  '\n' ∉ i.rule.toList ∧ ('\n' ∈ i.message.toList ↔ i.BreaksLine parser)

theorem lasting_inWords (parser : Parser σ) : Issue.Lasting (InWords parser) :=
  fun _ _ h => h

/-- **What is found in a text is in such words.** -/
theorem Shipped.inWords (he : e.Shipped) {path : Option String} {text : String} {memory : σ}
    {i : Issue} (h : e.Found (e.shown path text memory) i) : InWords e.parser i := by
  obtain ⟨r, hr, hfinds⟩ := h
  constructor
  · rw [(Rules.finds_cases (he r hr) hfinds).1]
    exact Rules.newline_not_mem_fullName (he r hr)
  · -- A break in the message is that of the node the parser could not read, and it is there.
    constructor
    · intro hline
      obtain ⟨hrule, p, f, hp, hf, hmessage⟩ := Rules.failure_of_newline_mem (he r hr) hfinds hline
      refine ⟨hrule, text, memory, ?_⟩
      change (e.parser text memory).answer.map Parsed.ofTree = .ok p at hp
      cases hans : (e.parser text memory).answer with
      | error fault =>
        rw [hans] at hp
        cases hp
      | ok tree =>
        rw [hans] at hp
        cases hp
        cases tree with
        | none =>
          -- without a tree the words are fixed
          cases hf
          rw [hmessage] at hline
          exact absurd hline (by decide)
        | some t =>
          rw [hmessage] at hline
          exact ⟨t, f, rfl, hf, (Tree.newline_mem_message_iff hf).mp hline, hmessage⟩
    · rintro ⟨-, _, _, t, f, -, hf, hspans, hmessage⟩
      rw [hmessage]
      exact (Tree.newline_mem_message_iff hf).mpr hspans

end Engine

namespace Output

open Engine

/-- **Editors read one line for each open issue, unless a failure of the parser breaks it.** For
every choice and configuration of the library's rules, every parser, and sources whose paths have no
line break, whatever disturbs the run: the lines that are written are those that the lines of the
open issues are made of, in their order. They are one for each open issue, and none if nothing is
open, as long as no open issue is in the words for a tree that fails at something over several
lines. If there is such an issue, there are more lines than open issues.

The run that `Engine.run` makes is one of those spoken of. -/
theorem flycheck_lines (rules : List (Rule σ)) (hne : rules ≠ [])
    (hrules : ∀ r ∈ rules, r.kind ∈ Rules.shipped) (parser : Parser σ) (cwd : String)
    (budget : Int) :
    ∃ e, Engine.ofRules rules parser cwd budget = .ok e ∧
      ∀ (ac : Bool) (ss : List Source) (w : World σ),
        (∀ s ∈ ss, s.Coherent ∧ s.ParsedBy parser ∧ s.OnOneLine) →
        e.Reports ac ss w.resume (e.run ac ss w).1.sources ∧
        ∀ r : Report, e.Reports ac ss w.resume r.sources →
          writtenLines (flycheck r) = (editorLines r).flatMap (splitText '\n') ∧
          ((∀ s ∈ r.sources, ∀ i ∈ s.openIssues, ¬ i.BreaksLine parser) →
            writtenLines (flycheck r) = editorLines r) ∧
          ((∃ s ∈ r.sources, ∃ i ∈ s.openIssues, i.BreaksLine parser) →
            (editorLines r).length < (writtenLines (flycheck r)).length) := by
  obtain ⟨e, hof, he, -, rfl, rfl⟩ := shipped_of_ofRules hne hrules parser cwd budget
  refine ⟨e, hof, fun ac ss w hss => ⟨reports_run e ac ss w, fun r hr => ?_⟩⟩
  -- the line of an open issue breaks where the words of the issue do
  have hline : ∀ s ∈ r.sources, ∀ i ∈ s.openIssues,
      ('\n' ∈ (editorLine (sourceName s) i).toList ↔ i.BreaksLine e.parser) := by
    intro s hs i hi
    obtain ⟨first, hfirst, w', states, t, hloops, rfl⟩ := hr.exists_of_mem hs
    obtain ⟨hcoherent, hparsed, hpath⟩ := hss first hfirst
    obtain ⟨hrule, hmessage⟩ := hloops.forall_reported (lasting_inWords e.parser)
      (fun _ _ _ _ hfound => he.inWords hfound) hcoherent hparsed (List.mem_filter.mp hi).1
    -- The path of a source is never changed, so it still is on one line.
    have hkept : (e.reportAfter t).source.path = first.path :=
      (hloops.origin.trans (reportAfter_origin t).1).path
    have hname : '\n' ∉ (sourceName (e.reportAfter t)).toList :=
      newline_not_mem_sourceName fun path hp => hpath path (hkept.symm.trans hp)
    exact (newline_mem_editorLine_iff hname hrule).trans hmessage
  refine ⟨writtenLines_flycheck r, fun hnone => ?_, ?_⟩
  · rw [writtenLines_flycheck]
    refine flatMap_splitText_of_not_mem fun l hl => ?_
    obtain ⟨s, hs, hl⟩ := List.mem_flatMap.mp hl
    obtain ⟨i, hi, rfl⟩ := List.mem_map.mp hl
    exact fun hmem => hnone s hs i hi ((hline s hs i hi).mp hmem)
  · rintro ⟨s, hs, i, hi, hbreaks⟩
    rw [writtenLines_flycheck]
    refine (length_flatMap_splitText '\n' _).2 ⟨editorLine (sourceName s) i, ?_, ?_⟩
    · exact List.mem_flatMap.mpr ⟨s, hs, List.mem_map_of_mem hi⟩
    · exact (hline s hs i hi).mpr hbreaks

/-! ### A specimen

A text of two lines that the parser cannot place at all, next to one that it accepts. -/

/-- The node of a text that could not be placed. -/
def tornNode : Node := ⟨"ERROR", 0, 3, true, false, none, []⟩

def tornTree : Tree :=
  ⟨⟨"program", 0, 3, true, false, none, [tornNode]⟩, true, Utf8.ofString "a\nb"⟩

/-- The parser that cannot place a text of two lines. -/
def tornParser : Parser Tally :=
  Scripted.Table.parser ⟨[("a\nb", some (tornTree.root, true))], .flat, none⟩

/-- The rules on text that does not parse and on blanks. -/
def tornRules : List (Rule Tally) :=
  [Rules.unparsable, Rules.trailingWhitespace].map Rule.ofKind

def torn : Engine Tally where
  rules := [.ofKind Rules.trailingWhitespace]
  parseRule := .ofKind Rules.unparsable
  parser := tornParser
  cwd := "/work"

def tornReport (text : String) : Report :=
  (torn.run false [Source.ofText text] ⟨{}, false, []⟩).1

/-- The text of two lines has one open issue, and two lines tell of it. -/
theorem torn_lines :
    Engine.ofRules tornRules tornParser "/work" = .ok torn ∧
      (tornReport "a\nb").sources.map (·.openIssues.length) = [1] ∧
      flycheck (tornReport "a\nb") = "<source>:1:1: E: [Lint/Syntax] unexpected token 'a\nb'" ∧
      (writtenLines (flycheck (tornReport "a\nb"))).length = 2 := by
  refine ⟨rfl, ?_⟩
  decide +kernel

/-- The failure of that text is told in the words for its tree, which go over two lines. The blank
in a text of two lines that parses is told in one line. -/
theorem torn_breaks :
    (∃ s ∈ (tornReport "a\nb").sources, ∃ i ∈ s.openIssues, i.BreaksLine tornParser) ∧
      (editorLines (tornReport "a\nb")).length
        < (writtenLines (flycheck (tornReport "a\nb"))).length ∧
      writtenLines (flycheck (tornReport "a \nb"))
        = ["<source>:1:2: C: [Layout/TrailingWhitespace] Trailing whitespace detected"] := by
  have hkinds : ∀ r ∈ tornRules, r.kind ∈ Rules.shipped := by
    intro r hr
    have hmem := kind_mem_of_mem_map_ofKind r hr
    simp only [List.mem_cons, List.not_mem_nil, or_false] at hmem
    rcases hmem with hkind | hkind
    · rw [hkind]
      exact .head _
    · rw [hkind]
      exact .tail _ (.tail _ (.tail _ (.tail _ (.head _))))
  obtain ⟨e, hof, hruns⟩ := flycheck_lines tornRules (List.cons_ne_nil _ _) hkinds tornParser "/work"
    defaultMaxIterations
  have htorn : Engine.ofRules tornRules tornParser "/work" = .ok torn := rfl
  obtain rfl : torn = e := Except.ok.inj (htorn.symm.trans hof)
  have hsources : ∀ text, ∀ s ∈ [Source.ofText text],
      s.Coherent ∧ s.ParsedBy tornParser ∧ s.OnOneLine := by
    intro text s hs
    obtain rfl := List.mem_singleton.mp hs
    exact ⟨Source.coherent_ofText _ _, Source.parsedBy_ofText _ _ _, fun _ hpath => by cases hpath⟩
  -- The same theorem for both texts. The first one is told over two lines, the other in one.
  obtain ⟨hreports, hall⟩ := hruns false _ ⟨{}, false, []⟩ (hsources "a\nb")
  obtain ⟨hreports', hall'⟩ := hruns false _ ⟨{}, false, []⟩ (hsources "a \nb")
  -- The tree has one node to blame, and its text holds the line break.
  have hculprit : tornTree.culprit? = some tornNode := by
    simp [Tree.culprit?, tornTree, tornNode, Node.walk, Node.walkFrom, Tree.isCulprit,
      Tree.errorKind]
  have hfailure : tornTree.failure = some ⟨"unexpected token 'a\nb'", 0, 3⟩ := by
    rw [Tree.failure_eq rfl, hculprit]
    decide
  have hwords : ∃ s ∈ (tornReport "a\nb").sources, ∃ i ∈ s.openIssues,
      i.rule = Rules.parseRuleName ∧ i.message = "unexpected token 'a\nb'" := by
    decide +kernel
  have hbreaks : ∃ s ∈ (tornReport "a\nb").sources, ∃ i ∈ s.openIssues,
      i.BreaksLine tornParser := by
    obtain ⟨s, hs, i, hi, hrule, hmessage⟩ := hwords
    exact ⟨s, hs, i, hi, hrule, "a\nb", {}, tornTree, _, rfl, hfailure,
      ⟨tornNode, hculprit, by decide⟩, hmessage⟩
  have hblanks : ∀ s ∈ (tornReport "a \nb").sources, ∀ i ∈ s.openIssues,
      i.rule ≠ Rules.parseRuleName := by
    decide +kernel
  have hline : editorLines (tornReport "a \nb")
      = ["<source>:1:2: C: [Layout/TrailingWhitespace] Trailing whitespace detected"] := by
    decide +kernel
  refine ⟨hbreaks, (hall _ hreports).2.2 hbreaks, ?_⟩
  rw [← hline]
  exact (hall' _ hreports').2.1 fun s hs i hi h => hblanks s hs i hi h.1

end Output

end Lintel
