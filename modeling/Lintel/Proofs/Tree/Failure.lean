import Lintel.Tree

/-!
# What is said of a failure

A tree with an error fails at the first node, in document order, that is missing or holds text the
parser could not place, or as a whole if there is no such node (`Tree.failure_eq`). The message
quotes the kind of a missing node, and of text that could not be placed the first token, trimmed and
cut short. Everything else in it is fixed, so there is a line break in the message exactly if there
is one in what is quoted (`Tree.newline_mem_message_iff`). A parser may well give such trees: a
token may go over several lines, as comments and quoted texts do.
-/

namespace Lintel

namespace Tree

def isCulprit (n : Node) : Bool := n.missing || n.kind == errorKind

def culprit? (t : Tree) : Option Node := t.root.walk.find? isCulprit

/-- The first token below a node that could not be placed, without blanks around it. -/
def token (t : Tree) (error : Node) : List Char :=
  trimBoth isBlank (Utf8.decodeLossy (t.nodeBytes error.firstLeaf))

/-- What a message quotes of a node that stands for a failure. -/
def quotes (t : Tree) (n : Node) : List Char :=
  if n.missing then n.kind.toList else (t.token n).take tokenLimit

/-- What the message of the tree quotes goes over several lines. -/
def SpansLines (t : Tree) : Prop :=
  ∃ n, t.culprit? = some n ∧ '\n' ∈ t.quotes n

variable {t : Tree}

/-! ### The first node that stands for a failure -/

theorem nodeFailure?_eq_none {n : Node} (h : isCulprit n = false) : t.nodeFailure? n = none := by
  rw [isCulprit, Bool.or_eq_false_iff] at h
  rw [nodeFailure?, h.1, h.2]
  rfl

theorem exists_nodeFailure {n : Node} (h : isCulprit n = true) :
    ∃ message, t.nodeFailure? n = some ⟨message, n.start, n.stop⟩ := by
  unfold nodeFailure?
  cases hmissing : n.missing with
  | true => exact ⟨_, rfl⟩
  | false =>
    rw [isCulprit, hmissing, Bool.false_or] at h
    rw [h]
    exact ⟨_, rfl⟩

theorem findSome?_nodeFailure (ns : List Node) :
    ns.findSome? t.nodeFailure? = (ns.find? isCulprit).bind t.nodeFailure? := by
  induction ns with
  | nil => rfl
  | cons n ns ih =>
    cases hn : isCulprit n with
    -- a culprit always gives a failure, so the first one found is the first failure
    | true =>
      obtain ⟨message, hfail⟩ := exists_nodeFailure (t := t) hn
      rw [List.findSome?_cons_of_isSome (by rw [hfail]; rfl), List.find?_cons_of_pos hn]
      rfl
    | false =>
      rw [List.findSome?_cons_of_isNone (by rw [nodeFailure?_eq_none hn]; rfl),
        List.find?_cons_of_neg (by rw [hn]; decide), ih]

/-- **A tree with an error fails at the first node that stands for a failure**, or as a whole. -/
theorem failure_eq (h : t.hasError = true) :
    t.failure = some ((t.culprit?.bind t.nodeFailure?).getD
      ⟨"invalid syntax", t.root.start, t.root.stop⟩) := by
  rw [failure, if_pos h, findSome?_nodeFailure]
  rfl

/-! ### Line breaks in messages -/

theorem newline_mem_unexpectedMessage_iff {n : Node} :
    '\n' ∈ (t.unexpectedMessage n).toList ↔ '\n' ∈ (t.token n).take tokenLimit := by
  unfold unexpectedMessage
  simp only
  rw [← token]
  split
  · next hempty =>
    -- there is no token
    rw [List.isEmpty_iff.mp hempty]
    decide
  · simp only [String.toList_append, String.toList_ofList, List.mem_append]
    split
    · simp
    · next hshort =>
      rw [List.take_of_length_le (Nat.le_of_not_lt hshort)]
      simp

theorem newline_mem_nodeFailure_iff {n : Node} {f : ParseFailure} (h : t.nodeFailure? n = some f) :
    '\n' ∈ f.message.toList ↔ '\n' ∈ t.quotes n := by
  unfold nodeFailure? at h
  unfold quotes
  split at h
  · -- what is missing is named by its kind, which is quoted as it is
    next hmissing =>
    cases h
    rw [if_pos hmissing]
    simp
  · next hmissing =>
    split at h
    · cases h
      rw [if_neg hmissing]
      exact newline_mem_unexpectedMessage_iff
    · cases h

/-- **A failure is told in several lines exactly if what is quoted goes over several lines.** -/
theorem newline_mem_message_iff {f : ParseFailure} (h : t.failure = some f) :
    '\n' ∈ f.message.toList ↔ t.SpansLines := by
  have herror : t.hasError = true := by
    unfold failure at h
    split at h
    · next herror => exact herror
    · cases h
  rw [failure_eq herror, Option.some.injEq] at h
  unfold SpansLines
  cases hculprit : t.culprit? with
  | none =>
    -- the tree fails as a whole, in fixed words
    rw [hculprit, Option.bind_none, Option.getD_none] at h
    rw [← h]
    refine iff_of_false (show '\n' ∉ "invalid syntax".toList by decide) ?_
    rintro ⟨n, hn, -⟩
    cases hn
  | some n =>
    obtain ⟨message, hfail⟩ := exists_nodeFailure (t := t) (List.find?_some hculprit)
    rw [hculprit, Option.bind_some, hfail, Option.getD_some] at h
    rw [← h, newline_mem_nodeFailure_iff hfail]
    simp only [Option.some.injEq, exists_eq_left']

end Tree

end Lintel
