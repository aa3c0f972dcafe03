import Lintel.Source

/-!
# What a source keeps of its text

A source keeps the octets of its text, the starts of its lines and the outcome of parsing once
they have been asked for. `Source.Coherent` says that the first two agree with the text, and
`Source.ParsedIn` that the third is an outcome which the language gives for this very text; in the
language of a parser it is an answer of the parser (`Source.ParsedBy`). They hold of a source that
nothing has been asked of, and every operation keeps the octets and the starts
(`Coherent.carryOut`) as well as the answers of a parser (`ParsedIn.carryOut`).

The outcome of parsing needs a condition to be kept. If the judgement of a tree fails, the new tree
stands beside an old failure, so the text must not have been parsed before (`ParsedIn.reparseIn`).
The judgement in the language of a parser never fails.

What the rest of the theory uses is `view_fst`: the view that a coherent source gives to a rule is
`View.ofText`, which is made from the path, the text and the outcome of parsing and from nothing
else. Asking for a view changes neither the text nor the path.
-/

namespace Lintel

/-- The view of a text: octets and line starts are those of the text. -/
def View.ofText (path : Option String) (text : String) (parsed : Except Fault Parsed) : View where
  path := path
  text := text
  bytes := Utf8.ofString text
  starts := lineStarts (Utf8.ofString text)
  parsed := parsed

@[simp] theorem View.ofText_path (path : Option String) (text : String)
    (parsed : Except Fault Parsed) : (View.ofText path text parsed).path = path := rfl

@[simp] theorem View.ofText_text (path : Option String) (text : String)
    (parsed : Except Fault Parsed) : (View.ofText path text parsed).text = text := rfl

@[simp] theorem View.ofText_bytes (path : Option String) (text : String)
    (parsed : Except Fault Parsed) :
    (View.ofText path text parsed).bytes = Utf8.ofString text := rfl

@[simp] theorem View.ofText_parsed (path : Option String) (text : String)
    (parsed : Except Fault Parsed) : (View.ofText path text parsed).parsed = parsed := rfl

variable {σ : Type}

namespace Language

def outcome (l : Language σ) (text : String) (memory : σ) : Except Fault Parsed :=
  (l.parse text memory).answer.bind fun tree => (l.judge tree).map fun failure => ⟨tree, failure⟩

@[simp] theorem outcome_ofParser (parser : Parser σ) (text : String) (memory : σ) :
    (ofParser parser).outcome text memory = (parser text memory).answer.map Parsed.ofTree := by
  change (parser text memory).answer.bind _ = _
  rcases (parser text memory).answer with f | (_ | tree)
  · rfl
  · rfl
  · rfl

end Language

namespace Source

/-- Two states of one source: the path and the first text are the same. -/
structure SameOrigin (s t : Source) : Prop where
  path : t.path = s.path
  initial : t.initial = s.initial

theorem SameOrigin.refl (s : Source) : s.SameOrigin s :=
  ⟨rfl, rfl⟩

theorem SameOrigin.trans {s t u : Source} (h : s.SameOrigin t) (h' : t.SameOrigin u) :
    s.SameOrigin u :=
  ⟨h'.path.trans h.path, h'.initial.trans h.initial⟩

/-- The octets and the line starts that a source keeps are those of its text. -/
structure Coherent (s : Source) : Prop where
  bytes : ∀ bs, s.bytesMemo = some bs → bs = Utf8.ofString s.text
  starts : ∀ ls, s.startsMemo = some ls → ls = lineStarts (Utf8.ofString s.text)

def ParsedIn (l : Language σ) (s : Source) : Prop :=
  ∀ p, s.parsedMemo = some p → ∃ memory, l.outcome s.text memory = .ok p

/-- The outcome of parsing that a source keeps is an answer of the parser for its text. -/
def ParsedBy (parser : Parser σ) (s : Source) : Prop :=
  ∀ p, s.parsedMemo = some p →
    ∃ memory tree, (parser s.text memory).answer = .ok tree ∧ p = Parsed.ofTree tree

theorem parsedIn_ofParser {parser : Parser σ} {s : Source} :
    s.ParsedIn (.ofParser parser) ↔ s.ParsedBy parser := by
  unfold ParsedIn ParsedBy
  -- What a parser answers from some memory is an outcome in its language from that memory.
  refine forall₂_congr fun p _ => exists_congr fun memory => ?_
  rw [Language.outcome_ofParser]
  constructor
  · intro h
    cases ha : (parser s.text memory).answer with
    | error f =>
      rw [ha] at h
      cases h
    | ok tree =>
      rw [ha] at h
      cases h
      exact ⟨tree, rfl, rfl⟩
  · rintro ⟨tree, ha, rfl⟩
    rw [ha]
    rfl

theorem parsedMemo_eq_none {s : Source} : s.parsedMemo = none ↔ s.known = false := by
  unfold parsedMemo
  cases s.known <;> simp

theorem coherent_ofText (text : String) (path : Option String) : (ofText text path).Coherent :=
  ⟨fun _ h => (by cases h), fun _ h => (by cases h)⟩

theorem parsedIn_ofText (l : Language σ) (text : String) (path : Option String) :
    (ofText text path).ParsedIn l :=
  fun _ h => (by cases h)

theorem parsedBy_ofText (parser : Parser σ) (text : String) (path : Option String) :
    (ofText text path).ParsedBy parser :=
  fun _ h => (by cases h)

theorem coherent_setText (s : Source) (text : String) : (s.setText text).Coherent :=
  ⟨fun _ h => (by cases h), fun _ h => (by cases h)⟩

theorem parsedIn_setText (l : Language σ) (s : Source) (text : String) :
    (s.setText text).ParsedIn l :=
  fun _ h => (by cases h)

theorem parsedBy_setText (parser : Parser σ) (s : Source) (text : String) :
    (s.setText text).ParsedBy parser :=
  fun _ h => (by cases h)

@[simp] theorem setText_text (s : Source) (text : String) : (s.setText text).text = text := rfl

@[simp] theorem setText_path (s : Source) (text : String) : (s.setText text).path = s.path := rfl

theorem setText_origin (s : Source) (text : String) : s.SameOrigin (s.setText text) :=
  ⟨rfl, rfl⟩

/-! ### Octets -/

@[simp] theorem bytes_text (s : Source) : s.bytes.2.text = s.text := by
  unfold bytes; split <;> rfl

theorem bytes_origin (s : Source) : s.SameOrigin s.bytes.2 := by
  unfold bytes
  split
  · exact ⟨rfl, rfl⟩
  · exact ⟨rfl, rfl⟩

@[simp] theorem bytes_path (s : Source) : s.bytes.2.path = s.path :=
  s.bytes_origin.path

@[simp] theorem bytes_parsedMemo (s : Source) : s.bytes.2.parsedMemo = s.parsedMemo := by
  unfold bytes; split <;> rfl

theorem bytes_fst {s : Source} (h : s.Coherent) : s.bytes.1 = Utf8.ofString s.text := by
  unfold bytes
  split
  · next bs hbs => exact h.bytes bs hbs
  · rfl

theorem Coherent.bytes_snd {s : Source} (h : s.Coherent) : s.bytes.2.Coherent := by
  unfold Source.bytes
  split
  · exact h
  · refine ⟨fun bs hbs => ?_, h.starts⟩
    cases hbs
    rfl

/-! ### Line starts -/

@[simp] theorem starts_text (s : Source) : s.starts.2.text = s.text := by
  unfold starts
  split
  · rfl
  · exact bytes_text s

theorem starts_origin (s : Source) : s.SameOrigin s.starts.2 := by
  unfold starts
  split
  · exact .refl s
  · exact s.bytes_origin.trans ⟨rfl, rfl⟩

@[simp] theorem starts_path (s : Source) : s.starts.2.path = s.path :=
  s.starts_origin.path

@[simp] theorem starts_parsedMemo (s : Source) : s.starts.2.parsedMemo = s.parsedMemo := by
  unfold starts
  split
  · rfl
  · exact bytes_parsedMemo s

theorem starts_fst {s : Source} (h : s.Coherent) :
    s.starts.1 = lineStarts (Utf8.ofString s.text) := by
  unfold starts
  split
  · next ls hls => exact h.starts ls hls
  · rw [← bytes_fst h]

theorem Coherent.starts_snd {s : Source} (h : s.Coherent) : s.starts.2.Coherent := by
  unfold Source.starts
  split
  · exact h
  · refine ⟨h.bytes_snd.bytes, fun ls hls => ?_⟩
    injection hls with hls
    rw [← hls]
    -- the starts are computed from the octets, which may have been kept from before
    change lineStarts s.bytes.1 = lineStarts (Utf8.ofString s.bytes.2.text)
    rw [bytes_fst h, bytes_text]

/-! ### Parsing -/

section Parsing

variable (l : Language σ) (s : Source) (w : World σ)

/-- A language fails to parse, or to judge the tree, or it does neither. -/
theorem reparseIn_cases :
    (∃ f, (l.parse s.text w.memory).answer = .error f ∧
      s.reparseIn l w = (.error f, s.bytes.2, w.after (.parse s.text) (l.parse s.text w.memory))) ∨
    (∃ tree f, (l.parse s.text w.memory).answer = .ok tree ∧ l.judge tree = .error f ∧
      s.reparseIn l w = (.error f, { s.bytes.2 with treeMemo := tree },
        w.after (.parse s.text) (l.parse s.text w.memory))) ∨
    ∃ tree failure, (l.parse s.text w.memory).answer = .ok tree ∧ l.judge tree = .ok failure ∧
      s.reparseIn l w = (.ok ⟨tree, failure⟩,
        { s.bytes.2 with treeMemo := tree, failureMemo := failure, known := true },
        w.after (.parse s.text) (l.parse s.text w.memory)) := by
  unfold reparseIn
  -- the octets are taken first, which leaves the text alone
  simp only [bytes_text]
  cases ha : (l.parse s.text w.memory).answer with
  | error f => exact .inl ⟨f, rfl, rfl⟩
  | ok tree =>
    cases hj : l.judge tree with
    | error f => exact .inr (.inl ⟨tree, f, rfl, hj, by simp only [hj]⟩)
    | ok failure => exact .inr (.inr ⟨tree, failure, rfl, hj, by simp only [hj]⟩)

@[simp] theorem reparseIn_text : (s.reparseIn l w).2.1.text = s.text := by
  rcases reparseIn_cases l s w with ⟨f, -, h⟩ | ⟨tree, f, -, -, h⟩ | ⟨tree, failure, -, -, h⟩ <;>
    rw [h] <;> exact bytes_text s

theorem reparseIn_origin : s.SameOrigin (s.reparseIn l w).2.1 := by
  rcases reparseIn_cases l s w with ⟨f, -, h⟩ | ⟨tree, f, -, -, h⟩ | ⟨tree, failure, -, -, h⟩
  · rw [h]
    exact s.bytes_origin
  · rw [h]
    exact s.bytes_origin.trans ⟨rfl, rfl⟩
  · rw [h]
    exact s.bytes_origin.trans ⟨rfl, rfl⟩

theorem reparseIn_fst : (s.reparseIn l w).1 = l.outcome s.text w.memory := by
  unfold Language.outcome
  -- The adapter may fail, then the judgement of the tree may; the outcome has the same three cases.
  rcases reparseIn_cases l s w with ⟨f, ha, h⟩ | ⟨tree, f, ha, hj, h⟩ | ⟨tree, failure, ha, hj, h⟩
  · rw [h, ha]
    rfl
  · rw [h, ha, Except.bind, hj]
    rfl
  · rw [h, ha, Except.bind, hj]
    rfl

theorem reparseIn_world :
    (s.reparseIn l w).2.2 = w.after (.parse s.text) (l.parse s.text w.memory) := by
  rcases reparseIn_cases l s w with ⟨f, -, h⟩ | ⟨tree, f, -, -, h⟩ | ⟨tree, failure, -, -, h⟩ <;>
    rw [h]

variable {l s w}

theorem Coherent.reparseIn (h : s.Coherent) (l : Language σ) (w : World σ) :
    (s.reparseIn l w).2.1.Coherent := by
  have hbytes := h.bytes_snd
  rcases reparseIn_cases l s w with ⟨f, -, h⟩ | ⟨tree, f, -, -, h⟩ | ⟨tree, failure, -, -, h⟩
  · rw [h]
    exact hbytes
  · -- the tree is no part of what coherence is about
    rw [h]
    exact ⟨hbytes.bytes, hbytes.starts⟩
  · rw [h]
    exact ⟨hbytes.bytes, hbytes.starts⟩

/-- **Parsing a text again** leaves what the language says of it, if a text whose tree cannot be
judged was not known before. -/
theorem ParsedIn.reparseIn (h : s.ParsedIn l)
    (hjudge : ∀ tree f, (l.parse s.text w.memory).answer = .ok tree → l.judge tree = .error f →
      s.parsedMemo = none) : (s.reparseIn l w).2.1.ParsedIn l := by
  intro p hp
  rw [reparseIn_text]
  have hfst := reparseIn_fst l s w
  rcases reparseIn_cases l s w with ⟨f, -, heq⟩ | ⟨tree, f, ha, hj, heq⟩ | ⟨tree, failure, -, -, heq⟩
  · -- a parser that fails leaves what was known before
    rw [heq, bytes_parsedMemo] at hp
    exact h p hp
  · have hnone := hjudge tree f ha hj
    rw [← bytes_parsedMemo, parsedMemo_eq_none] at hnone
    rw [heq, parsedMemo, hnone] at hp
    cases hp
  · rw [heq] at hp hfst
    cases hp
    exact ⟨w.memory, hfst.symm⟩

/-- What the language makes of a new text is kept, unless it fails. -/
theorem parsedMemo_of_reparseIn {p : Parsed} (h : (s.reparseIn l w).1 = .ok p) :
    (s.reparseIn l w).2.1.parsedMemo = some p := by
  rcases reparseIn_cases l s w with ⟨f, -, heq⟩ | ⟨tree, f, -, -, heq⟩ | ⟨tree, failure, -, -, heq⟩
  · rw [heq] at h
    cases h
  · rw [heq] at h
    cases h
  · -- only where nothing fails is the mark set
    rw [heq] at h ⊢
    cases h
    rfl

@[simp] theorem parseIn_text (l : Language σ) (s : Source) (w : World σ) :
    (s.parseIn l w).2.1.text = s.text := by
  unfold parseIn
  split
  · rfl
  · exact reparseIn_text l s w

theorem parseIn_origin (l : Language σ) (s : Source) (w : World σ) :
    s.SameOrigin (s.parseIn l w).2.1 := by
  unfold parseIn
  split
  · exact .refl s
  · exact reparseIn_origin l s w

theorem Coherent.parseIn (h : s.Coherent) (l : Language σ) (w : World σ) :
    (s.parseIn l w).2.1.Coherent := by
  unfold Source.parseIn
  split
  · exact h
  · exact h.reparseIn l w

/-- A text that is parsed because it is not known may be one whose tree cannot be judged. -/
theorem ParsedIn.parseIn (h : s.ParsedIn l) (w : World σ) : (s.parseIn l w).2.1.ParsedIn l := by
  unfold Source.parseIn
  split
  · exact h
  · next hnone => exact h.reparseIn fun _ _ _ _ => hnone

/-- What is known of a text after asking for it has been found out, now or before. -/
theorem ParsedIn.parseIn_fst (h : s.ParsedIn l) (w : World σ) :
    ∃ memory, (s.parseIn l w).1 = l.outcome s.text memory := by
  unfold Source.parseIn
  split
  · next p hp =>
    obtain ⟨memory, hout⟩ := h p hp
    exact ⟨memory, hout.symm⟩
  · exact ⟨w.memory, reparseIn_fst l s w⟩

end Parsing

/-! ### The language of a parser -/

@[simp] theorem reparse_text (parser : Parser σ) (s : Source) (w : World σ) :
    (s.reparse parser w).2.1.text = s.text :=
  reparseIn_text _ s w

@[simp] theorem reparse_path (parser : Parser σ) (s : Source) (w : World σ) :
    (s.reparse parser w).2.1.path = s.path :=
  (reparseIn_origin _ s w).path

theorem reparse_origin (parser : Parser σ) (s : Source) (w : World σ) :
    s.SameOrigin (s.reparse parser w).2.1 :=
  reparseIn_origin _ s w

theorem reparse_fst (parser : Parser σ) (s : Source) (w : World σ) :
    (s.reparse parser w).1 = (parser s.text w.memory).answer.map Parsed.ofTree := by
  rw [reparse, reparseIn_fst, Language.outcome_ofParser]

theorem reparse_world (parser : Parser σ) (s : Source) (w : World σ) :
    (s.reparse parser w).2.2 = w.after (.parse s.text) (parser s.text w.memory) :=
  reparseIn_world _ s w

theorem Coherent.reparse {s : Source} (h : s.Coherent) (parser : Parser σ) (w : World σ) :
    (s.reparse parser w).2.1.Coherent :=
  h.reparseIn _ w

theorem ParsedBy.reparse {parser : Parser σ} {s : Source} (h : s.ParsedBy parser) (w : World σ) :
    (s.reparse parser w).2.1.ParsedBy parser := by
  rw [← parsedIn_ofParser] at h ⊢
  -- every tree can be judged
  exact h.reparseIn fun _ _ _ hj => nomatch hj

theorem parse_eq (parser : Parser σ) (s : Source) (w : World σ) :
    s.parse parser w
      = match s.parsedMemo with
        | some p => (.ok p, s, w)
        | none => s.reparse parser w := rfl

@[simp] theorem parse_text (parser : Parser σ) (s : Source) (w : World σ) :
    (s.parse parser w).2.1.text = s.text :=
  parseIn_text _ s w

theorem parse_origin (parser : Parser σ) (s : Source) (w : World σ) :
    s.SameOrigin (s.parse parser w).2.1 :=
  parseIn_origin _ s w

@[simp] theorem parse_path (parser : Parser σ) (s : Source) (w : World σ) :
    (s.parse parser w).2.1.path = s.path :=
  (s.parse_origin parser w).path

theorem Coherent.parse {s : Source} (h : s.Coherent) (parser : Parser σ) (w : World σ) :
    (s.parse parser w).2.1.Coherent :=
  h.parseIn _ w

theorem ParsedBy.parse {parser : Parser σ} {s : Source} (h : s.ParsedBy parser) (w : World σ) :
    (s.parse parser w).2.1.ParsedBy parser := by
  rw [← parsedIn_ofParser] at h ⊢
  exact h.parseIn w

/-- What is known of a text after asking for it has been given by the parser, now or before. -/
theorem ParsedBy.parse_fst {parser : Parser σ} {s : Source} (h : s.ParsedBy parser)
    (w : World σ) :
    ∃ memory, (s.parse parser w).1 = (parser s.text memory).answer.map Parsed.ofTree := by
  obtain ⟨memory, hout⟩ := (parsedIn_ofParser.mpr h).parseIn_fst w
  exact ⟨memory, hout.trans (Language.outcome_ofParser parser s.text memory)⟩

/-- What the parser makes of a new text is kept, unless it fails. -/
theorem parsedMemo_of_reparse {parser : Parser σ} {s : Source} {w : World σ} {p : Parsed}
    (h : (s.reparse parser w).1 = .ok p) : (s.reparse parser w).2.1.parsedMemo = some p :=
  parsedMemo_of_reparseIn h

theorem parsedMemo_of_parse {parser : Parser σ} {s : Source} {w : World σ} {p : Parsed}
    (h : (s.parse parser w).1 = .ok p) : (s.parse parser w).2.1.parsedMemo = some p := by
  rw [parse_eq] at h ⊢
  split
  · -- known already: the source is left as it is
    next q hq =>
    rw [hq] at h
    cases h
    exact hq
  · next hq =>
    rw [hq] at h
    exact parsedMemo_of_reparse h

theorem parse_of_parsedMemo {parser : Parser σ} {s : Source} {p : Parsed}
    (h : s.parsedMemo = some p) (w : World σ) : s.parse parser w = (.ok p, s, w) := by
  rw [parse_eq, h]

/-! ### Views -/

@[simp] theorem viewWith_text (s : Source) (parsed : Except Fault Parsed) :
    (s.viewWith parsed).2.text = s.text := by
  change s.bytes.2.starts.2.text = s.text
  rw [starts_text, bytes_text]

@[simp] theorem viewWith_path (s : Source) (parsed : Except Fault Parsed) :
    (s.viewWith parsed).2.path = s.path := by
  change s.bytes.2.starts.2.path = s.path
  rw [starts_path, bytes_path]

@[simp] theorem viewWith_parsedMemo (s : Source) (parsed : Except Fault Parsed) :
    (s.viewWith parsed).2.parsedMemo = s.parsedMemo := by
  change s.bytes.2.starts.2.parsedMemo = s.parsedMemo
  rw [starts_parsedMemo, bytes_parsedMemo]

theorem Coherent.viewWith {s : Source} (h : s.Coherent) (parsed : Except Fault Parsed) :
    (s.viewWith parsed).2.Coherent :=
  h.bytes_snd.starts_snd

theorem viewWith_fst {s : Source} (h : s.Coherent) (parsed : Except Fault Parsed) :
    (s.viewWith parsed).1 = View.ofText s.path s.text parsed := by
  change (⟨s.bytes.2.starts.2.path, s.bytes.2.starts.2.text, s.bytes.1, s.bytes.2.starts.1, parsed⟩
    : View) = _
  rw [starts_path, starts_text, bytes_path, bytes_text, bytes_fst h, starts_fst h.bytes_snd,
    bytes_text]
  rfl

/-- **The view that a coherent source gives is the view of its text.** -/
theorem view_fst {s : Source} (h : s.Coherent) (parser : Parser σ) (w : World σ) :
    (s.view parser w).1 = View.ofText s.path s.text (s.parse parser w).1 := by
  change ((s.parse parser w).2.1.viewWith (s.parse parser w).1).1 = _
  rw [viewWith_fst (h.parse parser w), parse_path, parse_text]

theorem view_world (parser : Parser σ) (s : Source) (w : World σ) :
    (s.view parser w).2.2 = (s.parse parser w).2.2 := rfl

@[simp] theorem view_text (parser : Parser σ) (s : Source) (w : World σ) :
    (s.view parser w).2.1.text = s.text := by
  change ((s.parse parser w).2.1.viewWith (s.parse parser w).1).2.text = s.text
  rw [viewWith_text, parse_text]

@[simp] theorem view_path (parser : Parser σ) (s : Source) (w : World σ) :
    (s.view parser w).2.1.path = s.path := by
  change ((s.parse parser w).2.1.viewWith (s.parse parser w).1).2.path = s.path
  rw [viewWith_path, parse_path]

theorem view_origin (parser : Parser σ) (s : Source) (w : World σ) :
    s.SameOrigin (s.view parser w).2.1 :=
  ((s.parse_origin parser w).trans (bytes_origin _)).trans (starts_origin _)

theorem view_parsedMemo (parser : Parser σ) (s : Source) (w : World σ) :
    (s.view parser w).2.1.parsedMemo = (s.parse parser w).2.1.parsedMemo :=
  viewWith_parsedMemo _ (s.parse parser w).1

theorem Coherent.view {s : Source} (h : s.Coherent) (parser : Parser σ) (w : World σ) :
    (s.view parser w).2.1.Coherent :=
  (h.parse parser w).viewWith (s.parse parser w).1

theorem ParsedBy.view {parser : Parser σ} {s : Source} (h : s.ParsedBy parser) (w : World σ) :
    (s.view parser w).2.1.ParsedBy parser := by
  intro p hp
  rw [view_text]
  rw [view_parsedMemo] at hp
  have hq := h.parse w p hp
  rwa [parse_text] at hq

/-! ### Operations -/

/-- **Every operation keeps a source coherent.** -/
theorem Coherent.carryOut {s : Source} (h : s.Coherent) (l : Language σ) (op : Op)
    (w : World σ) : (s.carryOut l op w).2.1.Coherent := by
  cases op with
  | assign text => exact coherent_setText s text
  | reparse => exact h.reparseIn l w
  | tree => exact h.parseIn l w
  | root => exact h.parseIn l w
  | failure => exact h.parseIn l w
  | nodes => exact h.parseIn l w
  | nodesBelow n => exact h
  | bytes => exact h.bytes_snd
  | lines => exact h
  -- octets and starts are asked for one after the other, each keeping the source coherent
  | locate offset => exact h.bytes_snd.starts_snd
  | offset line column => exact h.starts_snd.bytes_snd
  | slice start stop => exact h.bytes_snd

/-- A source that differs only in what it keeps of octets and lines is parsed in the same
language. -/
theorem ParsedIn.congr {l : Language σ} {s t : Source} (h : s.ParsedIn l)
    (htext : t.text = s.text) (hmemo : t.parsedMemo = s.parsedMemo) : t.ParsedIn l := by
  intro p hp
  rw [hmemo] at hp
  rw [htext]
  exact h p hp

/-- **Every operation keeps to the language**, if parsing again does. -/
theorem ParsedIn.carryOut {l : Language σ} {s : Source} (h : s.ParsedIn l) (op : Op) (w : World σ)
    (hreparse : (s.reparseIn l w).2.1.ParsedIn l) : (s.carryOut l op w).2.1.ParsedIn l := by
  -- Only parsing writes to the memo of the parse; the other operations fill memos of their own.
  cases op with
  | assign text => exact parsedIn_setText l s text
  | reparse => exact hreparse
  | tree => exact h.parseIn w
  | root => exact h.parseIn w
  | failure => exact h.parseIn w
  | nodes => exact h.parseIn w
  | nodesBelow n => exact h
  | bytes => exact h.congr (bytes_text s) (bytes_parsedMemo s)
  | lines => exact h
  | locate offset =>
    refine h.congr (t := s.bytes.2.starts.2) ?_ ?_
    · rw [starts_text, bytes_text]
    · rw [starts_parsedMemo, bytes_parsedMemo]
  | offset line column =>
    refine h.congr (t := s.starts.2.bytes.2) ?_ ?_
    · rw [bytes_text, starts_text]
    · rw [bytes_parsedMemo, starts_parsedMemo]
  | slice start stop => exact h.congr (bytes_text s) (bytes_parsedMemo s)

end Source

end Lintel
