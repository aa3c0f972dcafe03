import Lintel.Rule

/-!
# One pass of correction

A pass asks the rules for corrections of the pending issues of a text, picks corrections that do
not touch each other, and applies them together.

1. **Proposals.** For each pending issue whose rule is known, the rule is asked for an edit. An
   edit has to lie inside the range of the issue and inside the text. A rule that fails, or whose
   edit does not, is put on record, and the issue stays as it is.
2. **Selection.** The proposals are put in order of their starts, and of the issues where starts
   are equal. An edit is accepted if it starts after the end of the last accepted one; otherwise
   its issue becomes a conflict. The first proposal is always accepted.
3. **Commit.** The accepted edits are applied to the octets of the text. If the outcome is a text,
   it replaces the text of the source and the issues count as corrected. If not, the fault is
   reported; the conflicts have been marked by then.

Issues are referred to by their position in the list of the pass.
-/

namespace Lintel

/-- An edit proposed for the issue at position `index`. -/
structure Proposal where
  index : Nat
  edit : Edit
  deriving DecidableEq, Repr

namespace Correction

variable {σ : Type}

/-- Whether an edit lies inside the issue and inside a text of `size` octets. -/
def checkBounds (size : Nat) (i : Issue) (e : Edit) : Except Fault Unit :=
  if (e.start : Int) < i.start ∨ i.stop < (e.stop : Int) then
    .error (.outsideIssue e.start e.stop i.start i.stop)
  else if size < e.stop then .error (.pastEnd e.stop)
  else .ok ()

/-- What a rule's answer to a request comes to: an edit, nothing, or a fault. -/
def verdict (size : Nat) (i : Issue) : Except Fault (Option Edit) → Except Fault (Option Edit)
  | .error f => .error f
  | .ok none => .ok none
  | .ok (some e) => (checkBounds size i e).map fun _ => some e

/-- The rule that answers for an issue: the last one of the list with its name. -/
def ruleFor (rules : List (Rule σ)) (i : Issue) : Option (Rule σ) :=
  rules.reverse.find? (·.fullName == i.rule)

/-- What came of asking for corrections. -/
structure Gathered (σ : Type) where
  proposals : List Proposal
  diagnostics : List Diagnostic
  world : World σ

/-- Ask for corrections of the issues, which are numbered from `index`. -/
def gatherFrom (rules : List (Rule σ)) (v : View) : Nat → List Issue → World σ → Gathered σ
  | _, [], w => ⟨[], [], w⟩
  | index, i :: more, w =>
    match if i.isPending then ruleFor rules i else none with
    -- nobody to ask, or nothing to ask for
    | none => gatherFrom rules v (index + 1) more w
    | some rule =>
      let reply := rule.correct v i w.memory
      -- the rules share one memory, so the order of the issues is the order of the requests
      let rest := gatherFrom rules v (index + 1) more (w.after (.correct i.rule v.text i) reply)
      match verdict v.bytes.length i reply.answer with
      | .error f =>
        -- the issue keeps its status and may be found again
        { rest with diagnostics := .ofFault i.rule v.path .correct f :: rest.diagnostics }
      | .ok none => rest
      | .ok (some e) => { rest with proposals := ⟨index, e⟩ :: rest.proposals }

/-- Proposals in order of their starts, equal ones in order of their issues. -/
def inOrder (ps : List Proposal) : List Proposal :=
  ps.mergeSort fun a b => decide (a.edit.start ≤ b.edit.start)

/-- Whether an edit may follow an accepted one that ends at `last`. -/
def isClear (last : Option Nat) (e : Edit) : Bool :=
  match last with
  | none => true
  -- strictly: edits that only touch are kept apart as well
  | some stop => decide (stop < e.start)

/-- The accepted proposals and the others, given the end of the last accepted edit. -/
def selectFrom : Option Nat → List Proposal → List Proposal × List Proposal
  | _, [] => ([], [])
  | last, p :: ps =>
    if isClear last p.edit then
      let (accepted, rejected) := selectFrom (some p.edit.stop) ps
      (p :: accepted, rejected)
    else
      -- a rejected edit does not stand in the way of the next one
      let (accepted, rejected) := selectFrom last ps
      (accepted, p :: rejected)

def select (ps : List Proposal) : List Proposal × List Proposal :=
  selectFrom none (inOrder ps)

def mark (positions : List Nat) (status : Status) (issues : List Issue) : List Issue :=
  issues.mapIdx fun k i => if positions.contains k then i.withStatus status else i

end Correction

/-- The outcome of a pass of correction. Without an accepted edit the text stays, and so do all
issues. -/
structure Correction (σ : Type) where
  source : Source
  issues : List Issue
  corrected : List Nat
  /-- The positions of the issues that lost against an accepted edit, in the order of theirs. -/
  conflicts : List Nat
  edits : List Edit
  diagnostics : List Diagnostic
  /-- The edited octets were not those of a text, and nothing was applied. -/
  fault : Option Fault
  world : World σ

namespace Correction

variable {σ : Type}

def changed (c : Correction σ) : Bool := !c.corrected.isEmpty

def issuesAt (c : Correction σ) (positions : List Nat) : List Issue :=
  positions.filterMap fun k => c.issues[k]?

/-- One pass of correction over a source whose current text `v` shows. -/
def apply (rules : List (Rule σ)) (source : Source) (v : View) (issues : List Issue)
    (w : World σ) : Correction σ :=
  let gathered := gatherFrom rules v 0 issues w
  let (accepted, rejected) := select gathered.proposals
  let conflicts := rejected.map (·.index)
  -- marked before the outcome is read: a fault below leaves these marks behind
  let marked := mark conflicts .conflict issues
  if accepted.isEmpty then
    ⟨source, issues, [], [], [], gathered.diagnostics, none, gathered.world⟩
  else
    match Utf8.decode (applyEdits v.bytes (accepted.map (·.edit))) with
    | .error bad =>
      ⟨source, marked, [], conflicts, [], gathered.diagnostics, some (.notText bad), gathered.world⟩
    | .ok chars =>
      let corrected := accepted.map (·.index)
      ⟨source.setText (String.ofList chars), mark corrected .corrected marked, corrected, conflicts,
        accepted.map (·.edit), gathered.diagnostics, none, gathered.world⟩

end Correction

end Lintel
