import Lintel.Proofs.Source.Memo

/-!
# A source answers as if it kept nothing

What a source keeps saves work and must not be noticed. `Language.answer` says what each operation
answers about a text when everything is computed anew; it knows of no memo. `carryOutAll_refines`
says that a source answers this way after any operations, whether they failed or not: each answer is
the one that a new source with the current text gives, the initial text stays, and the source counts
as corrected exactly if its text is another one.

The parser may have a memory of its own, and it may fail for some texts. What it must do is give
the same answer for the same text (`Language.Steady`). The judgement of trees and the walk through
them may fail as well.

**How.** A source that is asked for one thing after the other stays `Faithful` to its current text:
its octets, its line starts and its outcome of parsing are those of this text, whatever of them is
kept. A step keeps a source faithful (`Faithful.carryOut`) and a faithful source answers as its text
demands (`Faithful.carryOut_fst`); the rest is an induction on the operations.

The step that needs an argument is parsing a text again. If the judgement of the new tree fails, the
source is left with the new tree beside what was known before. In a steady language this does no
harm: had the text been known, its tree would have been judged before, and without a failure.
-/

namespace Lintel

variable {σ : Type}

namespace Language

def Steady (l : Language σ) : Prop :=
  ∀ text memory memory', (l.parse text memory).answer = (l.parse text memory').answer

theorem Steady.outcome {l : Language σ} (h : l.Steady) (text : String) (memory memory' : σ) :
    l.outcome text memory = l.outcome text memory' := by
  rw [Language.outcome, h text memory memory']
  rfl

/-- **What an operation answers about a text** if everything is computed anew. -/
def answer (l : Language σ) (text : String) (memory : σ) : Source.Op → Except Fault Source.Answer
  | .assign _ => .ok .done
  | .reparse => (l.outcome text memory).map fun _ => .done
  | .tree => (l.outcome text memory).map fun p => .tree p.tree
  | .root => (l.outcome text memory).map fun p => .root (p.tree.map (·.root))
  | .failure => (l.outcome text memory).map fun p => .failure p.failure
  | .nodes => (l.outcome text memory).bind fun p => (Source.nodesIn l p).map .nodes
  | .nodesBelow n => (l.walk n).map .nodes
  | .bytes => .ok (.bytes (Utf8.ofString text))
  | .lines => .ok (.lines (linesOf text))
  | .locate offset =>
    .ok (.location (locateFrom (Utf8.ofString text) (lineStarts (Utf8.ofString text)) offset))
  | .offset line column =>
    .ok (.offset
      (offsetFrom text (Utf8.ofString text) (lineStarts (Utf8.ofString text)) line column))
  | .slice start stop =>
    .ok (.text (String.ofList (Utf8.decodeLossy (Lintel.slice (Utf8.ofString text) start stop))))

theorem Steady.answer {l : Language σ} (h : l.Steady) (text : String) (memory memory' : σ)
    (op : Source.Op) : l.answer text memory op = l.answer text memory' op := by
  have houtcome := h.outcome text memory memory'
  cases op <;> simp only [Language.answer, houtcome]

end Language

namespace Source

def Op.textAfter (text : String) : Op → String
  | .assign text => text
  | _ => text

def textAfter (text : String) (ops : List Op) : String :=
  ops.foldl Op.textAfter text

/-- Carry out operations one after the other, each on what the ones before it have left, also where
these have failed. -/
def carryOutAll (l : Language σ) :
    List Op → Source → World σ → List (Except Fault Answer) × Source × World σ
  | [], s, w => ([], s, w)
  | op :: ops, s, w =>
    let (answer, s, w) := s.carryOut l op w
    let (answers, s, w) := carryOutAll l ops s w
    (answer :: answers, s, w)

/-! ### One operation -/

/-- **No operation changes the path or the initial text.** -/
theorem carryOut_origin (l : Language σ) (op : Op) (s : Source) (w : World σ) :
    s.SameOrigin (s.carryOut l op w).2.1 := by
  cases op with
  -- the one operation that changes the text, and it leaves the other two
  | assign text => exact setText_origin s text
  | reparse => exact reparseIn_origin l s w
  | tree => exact parseIn_origin l s w
  | root => exact parseIn_origin l s w
  | failure => exact parseIn_origin l s w
  | nodes => exact parseIn_origin l s w
  | nodesBelow n => exact .refl s
  | bytes => exact bytes_origin s
  | lines => exact .refl s
  | locate offset => exact (bytes_origin s).trans (starts_origin _)
  | offset line column => exact (starts_origin s).trans (bytes_origin _)
  | slice start stop => exact bytes_origin s

/-- **Only an assignment changes the text.** -/
@[simp] theorem carryOut_text (l : Language σ) (op : Op) (s : Source) (w : World σ) :
    (s.carryOut l op w).2.1.text = op.textAfter s.text := by
  cases op with
  -- all others only add to the memo
  | assign text => rfl
  | reparse => exact reparseIn_text l s w
  | tree => exact parseIn_text l s w
  | root => exact parseIn_text l s w
  | failure => exact parseIn_text l s w
  | nodes => exact parseIn_text l s w
  | nodesBelow n => rfl
  | bytes => exact bytes_text s
  | lines => rfl
  | locate offset => exact (starts_text _).trans (bytes_text s)
  | offset line column => exact (bytes_text _).trans (starts_text s)
  | slice start stop => exact bytes_text s

/-- What a source keeps is what its text demands. -/
structure Faithful (l : Language σ) (s : Source) : Prop where
  coherent : s.Coherent
  parsed : s.ParsedIn l

theorem faithful_ofText (l : Language σ) (text : String) (path : Option String) :
    (ofText text path).Faithful l :=
  ⟨coherent_ofText text path, parsedIn_ofText l text path⟩

namespace Faithful

variable {l : Language σ} {s : Source}

/-- **Parsing a text again keeps a source faithful.** -/
theorem reparseIn (hl : l.Steady) (h : s.Faithful l) (w : World σ) :
    (s.reparseIn l w).2.1.ParsedIn l := by
  refine h.parsed.reparseIn fun tree f hanswer hjudge => ?_
  cases hmemo : s.parsedMemo with
  | none => rfl
  | some p =>
    -- the text was parsed before, and then its tree was judged without a failure
    obtain ⟨memory, hknown⟩ := h.parsed p hmemo
    rw [hl.outcome s.text memory w.memory, Language.outcome, hanswer, Except.bind, hjudge] at hknown
    cases hknown

/-- **An operation keeps a source faithful**, also one that fails. -/
theorem carryOut (hl : l.Steady) (h : s.Faithful l) (op : Op) (w : World σ) :
    (s.carryOut l op w).2.1.Faithful l :=
  ⟨h.coherent.carryOut l op w, h.parsed.carryOut op w (h.reparseIn hl w)⟩

/-- What comes of parsing a text, if that is not known already, is what the language makes of it. -/
theorem parseIn_fst (hl : l.Steady) (h : s.Faithful l) (w : World σ) (memory : σ) :
    (s.parseIn l w).1 = l.outcome s.text memory := by
  obtain ⟨memory', heq⟩ := h.parsed.parseIn_fst w
  rw [heq, hl.outcome s.text memory' memory]

/-- A question about the tree is answered from the outcome of parsing. -/
theorem askParsed_fst (hl : l.Steady) (h : s.Faithful l) (w : World σ) (memory : σ)
    (read : Parsed → Except Fault Answer) :
    (s.askParsed l w read).1 = (l.outcome s.text memory).bind read := by
  change (s.parseIn l w).1.bind read = _
  rw [h.parseIn_fst hl w memory]

/-- **A faithful source answers as its text demands.** -/
theorem carryOut_fst (hl : l.Steady) (h : s.Faithful l) (op : Op) (w : World σ) (memory : σ) :
    (s.carryOut l op w).1 = l.answer s.text memory op := by
  -- an answer that is only read off the outcome never fails by itself
  have hask : ∀ read : Parsed → Answer,
      (s.askParsed l w fun p => .ok (read p)).1 = (l.outcome s.text memory).map read := by
    intro read
    rw [h.askParsed_fst hl w memory]
    cases l.outcome s.text memory <;> rfl
  cases op with
  | assign text => rfl
  | reparse =>
    change (s.reparseIn l w).1.map _ = _
    rw [reparseIn_fst, hl.outcome s.text w.memory memory]
    rfl
  | tree => exact hask _
  | root => exact hask _
  | failure => exact hask _
  | nodes => exact h.askParsed_fst hl w memory _
  | nodesBelow n => rfl
  -- What is kept in memory was made from the text, so it is read as if made now.
  | bytes =>
    change Except.ok (Answer.bytes s.bytes.1) = _
    rw [bytes_fst h.coherent]
    rfl
  | lines => rfl
  | locate offset =>
    change Except.ok (Answer.location (locateFrom s.bytes.1 s.bytes.2.starts.1 offset)) = _
    rw [bytes_fst h.coherent, starts_fst h.coherent.bytes_snd, bytes_text]
    rfl
  | offset line column =>
    change Except.ok (Answer.offset
      (offsetFrom s.starts.2.bytes.2.text s.starts.2.bytes.1 s.starts.1 line column)) = _
    rw [bytes_text, bytes_fst h.coherent.starts_snd, starts_text, starts_fst h.coherent]
    rfl
  | slice start stop =>
    change Except.ok (Answer.text (String.ofList (Utf8.decodeLossy
      (Lintel.slice s.bytes.1 start stop)))) = _
    rw [bytes_fst h.coherent]
    rfl

end Faithful

/-! ### Any number of operations -/

theorem textAfter_cons (text : String) (op : Op) (ops : List Op) :
    textAfter text (op :: ops) = textAfter (op.textAfter text) ops := rfl

theorem carryOutAll_cons (l : Language σ) (op : Op) (ops : List Op) (s : Source) (w : World σ) :
    carryOutAll l (op :: ops) s w
      = ((s.carryOut l op w).1 ::
            (carryOutAll l ops (s.carryOut l op w).2.1 (s.carryOut l op w).2.2).1,
          (carryOutAll l ops (s.carryOut l op w).2.1 (s.carryOut l op w).2.2).2) := rfl

theorem length_carryOutAll (l : Language σ) (ops : List Op) (s : Source) (w : World σ) :
    (carryOutAll l ops s w).1.length = ops.length := by
  induction ops generalizing s w with
  | nil => rfl
  | cons op ops ih => rw [carryOutAll_cons, List.length_cons, ih, List.length_cons]

theorem carryOutAll_origin (l : Language σ) (ops : List Op) (s : Source) (w : World σ) :
    s.SameOrigin (carryOutAll l ops s w).2.1 := by
  induction ops generalizing s w with
  | nil => exact .refl s
  | cons op ops ih => exact (carryOut_origin l op s w).trans (ih _ _)

theorem carryOutAll_text (l : Language σ) (ops : List Op) (s : Source) (w : World σ) :
    (carryOutAll l ops s w).2.1.text = textAfter s.text ops := by
  induction ops generalizing s w with
  | nil => rfl
  | cons op ops ih => rw [carryOutAll_cons, ih, carryOut_text, textAfter_cons]

/-- **Each answer of a run is the one that the current text demands.** -/
theorem Faithful.getElem?_carryOutAll {l : Language σ} (hl : l.Steady) {s : Source}
    (h : s.Faithful l) (ops : List Op) (w : World σ) (memory : σ) {k : Nat} {op : Op}
    (hk : ops[k]? = some op) :
    (carryOutAll l ops s w).1[k]? = some (l.answer (textAfter s.text (ops.take k)) memory op) := by
  induction ops generalizing s w k with
  | nil => cases hk
  | cons first ops ih =>
    rw [carryOutAll_cons]
    cases k with
    | zero =>
      cases hk
      rw [List.getElem?_cons_zero, h.carryOut_fst hl op w memory]
      rfl
    | succ k =>
      rw [List.getElem?_cons_succ] at hk ⊢
      -- the first operation leaves a faithful source with the text that it demands
      rw [ih (h.carryOut hl first w) _ hk, carryOut_text, List.take_succ_cons, textAfter_cons]

theorem isCorrected_iff (s : Source) : s.isCorrected = true ↔ s.text ≠ s.initial := by
  rw [isCorrected, bne_iff_ne]

/-- **Nothing that a source keeps is ever noticed.** Of any operations on a source, each answers, or
fails, as it would on a new source with the current text; the initial text stays, and the source
counts as corrected exactly if the current text is another one. -/
theorem carryOutAll_refines (l : Language σ) (hl : l.Steady) (text : String) (path : Option String)
    (ops : List Op) (w : World σ) :
    (carryOutAll l ops (ofText text path) w).1.length = ops.length ∧
    (∀ k op, ops[k]? = some op → ∀ w' : World σ,
      (carryOutAll l ops (ofText text path) w).1[k]?
        = some ((ofText (textAfter text (ops.take k)) path).carryOut l op w').1) ∧
    (carryOutAll l ops (ofText text path) w).2.1.initial = text ∧
    (carryOutAll l ops (ofText text path) w).2.1.text = textAfter text ops ∧
    ((carryOutAll l ops (ofText text path) w).2.1.isCorrected = true ↔
      textAfter text ops ≠ text) := by
  have hinitial := (carryOutAll_origin l ops (ofText text path) w).initial
  have htext := carryOutAll_text l ops (ofText text path) w
  refine ⟨length_carryOutAll l ops _ w, ?_, hinitial, htext, ?_⟩
  · intro k op hk w'
    -- both answer as the current text demands
    have hfresh := (faithful_ofText l (textAfter text (ops.take k)) path).carryOut_fst hl op w'
    rw [(faithful_ofText l text path).getElem?_carryOutAll hl ops w w.memory hk,
      hfresh w.memory]
    rfl
  · rw [isCorrected_iff, htext, hinitial]
    rfl

/-! ### A moody language -/

/-- A language whose parser counts its calls. It fails for one text, has no tree for another, which
it cannot judge, and gives every other text a single node. -/
def moody : Language Nat where
  parse := fun text calls =>
    ⟨if text = "(" then .error .noTree
      else if text = "?" then .ok none
      else .ok (some ⟨⟨"program", 0, text.length, true, false, none, []⟩, false, []⟩),
      calls + 1, false⟩
  judge := fun
    | none => .error .noFindings
    | some tree => .ok tree.failure
  walk := fun n => .ok n.walk

/-- Questions before, between and after failures. -/
def questions : List Op :=
  [.tree, .assign "(", .failure, .bytes, .assign "?", .reparse, .root, .locate 1, .assign "a\nb",
    .reparse, .nodes, .offset 2 1, .assign "(", .slice 0 1, .tree]

theorem moody_refines :
    (∀ k op, questions[k]? = some op → ∀ w : World Nat,
      (carryOutAll moody questions (ofText "a") ⟨0, false, []⟩).1[k]?
        = some ((ofText (textAfter "a" (questions.take k))).carryOut moody op w).1) ∧
    (carryOutAll moody questions (ofText "a") ⟨0, false, []⟩).1.map (·.isOk)
      = [true, true, false, true, true, false, false, true, true, true, true, true, true, true,
          false] ∧
    (carryOutAll moody questions (ofText "a") ⟨0, false, []⟩).2.1.isCorrected = true := by
  have hrun := carryOutAll_refines moody (fun _ _ _ => rfl) "a" none questions ⟨0, false, []⟩
  refine ⟨hrun.2.1, ?_, hrun.2.2.2.2.mpr ?_⟩
  · decide +kernel
  · decide

end Source

end Lintel
