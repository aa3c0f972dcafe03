import Lintel.Proofs.Correction.Gathering
import Lintel.Proofs.Edit.Graded
import Lintel.Proofs.Text.Ascii
import Lintel.Proofs.Text.Slice
import Lintel.Proofs.Tree.Preorder
import Lintel.Rules

/-!
# What the rules of the library take away and put in its place

Of the rules that come with the library two offer corrections, and what they do to the octets is
little: blanks at the end of a line go, and two parentheses go with a space in their place where
words would be joined. `Mends` lists the possibilities, and `mends_of_proposes` says that there are
no others, whatever the trees of the parser look like. The edits refer to ranges of nodes, which
are arbitrary, so the rule on parentheses has to look at the octets before it proposes anything.

One possibility is there only for trees with empty ranges: a node that starts and ends between a
closing and an opening parenthesis gets a space put in. `View.Fits` rules it out.
-/

namespace Lintel

variable {σ : Type}

/-- The rule hands over an issue, in some memory, when it is shown a view. -/
def Rule.Finds (r : Rule σ) (v : View) (i : Issue) : Prop :=
  ∃ memory found, (r.detect v memory).answer = .ok (some found) ∧ i ∈ found

/-- The rule hands over a new issue for each finding: a reported one, and none twice. -/
def Rule.FindsNew (r : Rule σ) : Prop :=
  ∀ v i, r.Finds v i → i.IsNew

/-- The rule builds its findings from ranges of the text that it is shown. -/
def Rule.FindsRanges (r : Rule σ) : Prop :=
  ∀ v memory found, (r.detect v memory).answer = .ok (some found) → ∀ i ∈ found,
    ∃ start stop message correctable remedy,
      i = Rule.issueAt r.kind.profile r.config v start stop message correctable remedy

/-- What is built from a range is a new issue. -/
theorem Rule.FindsRanges.findsNew {r : Rule σ} (h : r.FindsRanges) : r.FindsNew := by
  rintro v i ⟨memory, found, hans, hi⟩
  obtain ⟨start, stop, message, correctable, remedy, rfl⟩ := h v memory found hans i hi
  exact ⟨rfl, rfl⟩

def parenthesesKind : String := "parenthesized_statements"

/-- The nodes of parentheses have ranges that are not empty and lie in the text. -/
def View.Fits (v : View) : Prop :=
  ∀ p, v.parsed = .ok p → ∀ n ∈ p.nodes, n.kind = parenthesesKind →
    n.start < n.stop ∧ n.stop ≤ v.bytes.length

/-! ### Ranges of octets -/

theorem split_at_two {bs : Bytes} {i j : Nat} {b c : UInt8} (hi : bs.drop i = b :: bs.drop (i + 1))
    (hj : bs.drop j = c :: bs.drop (j + 1)) (hij : i < j) :
    bs = bs.take i ++ b :: ((bs.drop (i + 1)).take (j - (i + 1)) ++ c :: bs.drop (j + 1)) := by
  have hrest : (bs.drop (i + 1)).drop (j - (i + 1)) = bs.drop j := by
    rw [List.drop_drop]
    congr 1
    omega
  -- at the first octet, and then what follows it at the second
  calc bs = bs.take i ++ bs.drop i := (List.take_append_drop i bs).symm
    _ = bs.take i ++ b :: bs.drop (i + 1) := by rw [hi]
    _ = bs.take i ++ b :: ((bs.drop (i + 1)).take (j - (i + 1))
          ++ (bs.drop (i + 1)).drop (j - (i + 1))) := by rw [List.take_append_drop]
    _ = _ := by rw [hrest, hj]

/-- A range that begins with one octet and ends with another, as slices tell, is empty or has room
for both. -/
theorem range_cases {bs : Bytes} {start stop : Nat} {b c : UInt8} (hbc : b ≠ c)
    (hle : start ≤ stop) (hb : slice bs (start : Int) ((start : Int) + 1) = [b])
    (hc : slice bs ((stop : Int) - 1) (stop : Int) = [c]) :
    start < bs.length ∧
      (start = stop ∧ slice bs ((start : Int) + 1) ((stop : Int) - 1) = [] ∨
        ∃ inner, slice bs ((start : Int) + 1) ((stop : Int) - 1) = inner ∧
          bs = bs.take start ++ b :: (inner ++ c :: bs.drop stop) ∧
          start + inner.length + 2 = stop) := by
  -- a range that ends at the start of the text does not end with an octet
  obtain ⟨last, rfl⟩ : ∃ last, stop = last + 1 := by
    cases stop with
    | succ last => exact ⟨last, rfl⟩
    | zero =>
      rw [Int.natCast_zero, slice_zero] at hc
      cases hc
  rw [Int.natCast_add, Int.natCast_one, Int.add_sub_cancel] at hc ⊢
  have hfirst := drop_of_slice_eq hb
  have hlast := drop_of_slice_eq hc
  have hinner : slice bs ((start : Int) + 1) (last : Int)
      = (bs.drop (start + 1)).take (last - (start + 1)) := slice_natCast bs (start + 1) last
  have hstart := congrArg List.length hfirst
  have hstop := congrArg List.length hlast
  simp only [List.length_drop, List.length_cons] at hstart hstop
  refine ⟨by omega, ?_⟩
  rcases Nat.lt_trichotomy start last with hlt | rfl | hgt
  · refine .inr ⟨_, hinner, split_at_two hfirst hlast hlt, ?_⟩
    rw [List.length_take, List.length_drop]
    omega
  · -- one octet would be both
    rw [hfirst] at hlast
    cases hlast
    exact absurd rfl hbc
  · have hnone : last - (start + 1) = 0 := by omega
    rw [hinner, hnone, List.take_zero]
    exact .inl ⟨by omega, rfl⟩

namespace Rules

/-! ### Blanks at the end of a line -/

namespace TrailingWhitespace

def IsRun (bs : Bytes) (range : Nat × Nat) : Prop :=
  ∃ before blanks after, bs = before ++ blanks ++ after ∧ range.1 = before.length ∧
    range.2 = before.length + blanks.length ∧ blanks ≠ [] ∧ ∀ b ∈ blanks, isSpace b = true

/-- What `runsFrom` remembers of the octets `done` it has gone through: if a run has begun, it
reaches up to here. -/
def RunsUp (done : Bytes) (run : Option Nat) : Prop :=
  ∀ start, run = some start → IsRun done (start, done.length)

/-- A run that has begun goes on with a blank, and one that has not begins. -/
theorem RunsUp.snoc {done : Bytes} {run : Option Nat} (h : RunsUp done run) {b : UInt8}
    (hb : isSpace b = true) : RunsUp (done ++ [b]) (some (run.getD done.length)) := by
  intro start hstart
  injection hstart with hstart
  subst hstart
  cases run with
  -- The run begins with this blank.
  | none =>
    refine ⟨done, [b], [], by rw [List.append_nil], rfl, ?_, List.cons_ne_nil b [], ?_⟩
    · rw [List.length_append]
    · intro c hc
      rw [List.mem_singleton.mp hc]
      exact hb
  | some start =>
    obtain ⟨before, blanks, after, hdone, hs, he, hne, hall⟩ := h start rfl
    -- the run reaches up to the end, so nothing comes after it
    obtain rfl : after = [] := by
      have hlen := congrArg List.length hdone
      simp only [List.length_append] at hlen he
      exact List.length_eq_zero_iff.mp (by omega)
    rw [List.append_nil] at hdone
    refine ⟨before, blanks ++ [b], [], ?_, hs, ?_, by simp, ?_⟩
    · rw [hdone, List.append_nil, List.append_assoc]
    · rw [hdone]
      simp only [List.length_append]
      omega
    · intro c hc
      rcases List.mem_append.mp hc with hc | hc
      · exact hall c hc
      · rw [List.mem_singleton.mp hc]
        exact hb

theorem IsRun.append {bs : Bytes} {range : Nat × Nat} (h : IsRun bs range) (more : Bytes) :
    IsRun (bs ++ more) range := by
  obtain ⟨before, blanks, after, rfl, hs, he, hne, hall⟩ := h
  exact ⟨before, blanks, after ++ more, by simp only [List.append_assoc], hs, he, hne, hall⟩

/-- **What is reported are runs of blanks.** The induction is on what is left of the text. -/
theorem isRun_of_mem_runsFrom {done rest : Bytes} {run : Option Nat} (hrun : RunsUp done run)
    {range : Nat × Nat} (h : range ∈ runsFrom done.length run rest) :
    IsRun (done ++ rest) range := by
  -- no run has begun after an octet that is not a blank
  have hnone : ∀ bs, RunsUp bs none := fun bs start hstart => by cases hstart
  induction rest generalizing done run with
  | nil =>
    rw [List.append_nil]
    cases run with
    | none => cases h
    -- The text ends inside a run of blanks, which is reported.
    | some start =>
      rw [List.mem_singleton.mp h]
      exact hrun start rfl
  | cons b rest ih =>
    have hnext : ∀ {run'}, RunsUp (done ++ [b]) run' →
        range ∈ runsFrom (done.length + 1) run' rest → IsRun (done ++ b :: rest) range := by
      intro run' hrun' hmem
      have hlength : (done ++ [b]).length = done.length + 1 := by
        rw [List.length_append, List.length_singleton]
      rw [← hlength] at hmem
      rw [List.append_cons]
      exact ih hrun' hmem
    unfold runsFrom at h
    split at h
    · next hb => exact hnext (hrun.snoc hb) h
    · cases run with
      | none => exact hnext (hnone _) h
      | some start =>
        -- a run ends here, and is reported if the line does
        simp only at h
        split at h
        · rcases List.mem_cons.mp h with rfl | h
          · exact (hrun start rfl).append _
          · exact hnext (hnone _) h
        · exact hnext (hnone _) h

theorem isRun_of_mem_runs {bs : Bytes} {range : Nat × Nat} (h : range ∈ runs bs) :
    IsRun bs range := by
  have hrun : RunsUp [] none := fun start hstart => by cases hstart
  exact isRun_of_mem_runsFrom hrun h

end TrailingWhitespace

/-! ### Parentheses -/

namespace RedundantParentheses

/-- A space, or nothing. -/
def padding (c : Bool) : Bytes :=
  if c then [0x20] else []

theorem encode_padLeft (c : Bool) (cs : List Char) :
    Utf8.encode (if c then ' ' :: cs else cs) = padding c ++ Utf8.encode cs := by
  cases c with
  | true => rfl
  | false => rfl

theorem encode_padRight (c : Bool) (cs : List Char) :
    Utf8.encode (if c then cs ++ [' '] else cs) = Utf8.encode cs ++ padding c := by
  cases c with
  | true => exact Utf8.encode_append cs [' ']
  | false => exact (List.append_nil _).symm

theorem mem_children_of_map_childByField {n c : Node} {field : String} {mark marked : Bool}
    (h : (n.childByField field).map (·, mark) = some (c, marked)) : c ∈ n.children := by
  obtain ⟨child, hchild, hpair⟩ := Option.map_eq_some_iff.mp h
  cases hpair
  exact List.mem_of_find?_eq_some hchild

theorem mem_children_of_condition? {n condition : Node} {ternary : Bool}
    (h : condition? n = some (condition, ternary)) : condition ∈ n.children := by
  unfold condition? at h
  -- Three kinds of node have a condition, and each holds it as a field.
  split at h
  · exact mem_children_of_map_childByField h
  · split at h
    · exact mem_children_of_map_childByField h
    · split at h
      · exact mem_children_of_map_childByField h
      · cases h

/-- A condition that is reported is a node of parentheses, and a child of the node it is the
condition of. -/
theorem of_reported? {c : RuleConfig} {n condition : Node} (h : reported? c n = some condition) :
    condition ∈ n.children ∧ condition.kind = parenthesesKind := by
  unfold reported? at h
  split at h
  · split at h
    · next condition' ternary hcondition =>
      split at h
      · -- what can be dropped is parentheses, whatever the options say
        next hredundant =>
        cases h
        rw [isRedundant, Bool.and_eq_true, beq_iff_eq] at hredundant
        exact ⟨mem_children_of_condition? hcondition, hredundant.1⟩
      · cases h
    · cases h
  · cases h

/-- **What takes the place of parentheses** is what they hold, with a space or nothing on each
side. -/
theorem encode_unwrapped (v : View) (start stop : Int) :
    ∃ left right, Utf8.encode (unwrapped v start stop)
      = padding left ++ Utf8.encode (Utf8.decodeLossy (slice v.bytes (start + 1) (stop - 1)))
        ++ padding right := by
  unfold unwrapped
  simp only
  rw [encode_padRight, encode_padLeft]
  exact ⟨_, _, rfl⟩

end RedundantParentheses

/-! ### All rules of the library -/

/-- **What an edit takes away and puts in its place**, by the full name of the rule. -/
inductive Mends : String → Bytes → Bytes → Prop where
  | trim (blanks : Bytes) (h : ∀ b ∈ blanks, TrailingWhitespace.isSpace b = true) :
      Mends TrailingWhitespace.profile.fullName blanks []
  /-- Parentheses go, and a space takes their place if need be. -/
  | unwrap (inner : Bytes) (left right : Bool) :
      Mends RedundantParentheses.profile.fullName (0x28 :: (inner ++ [0x29]))
        (RedundantParentheses.padding left ++ inner ++ RedundantParentheses.padding right)
  /-- Nothing goes, and a space is put in if need be. -/
  | pad (left right : Bool) :
      Mends RedundantParentheses.profile.fullName []
        (RedundantParentheses.padding left ++ RedundantParentheses.padding right)

theorem eq_of_fullName {k k' : RuleKind σ} (hk : k ∈ shipped) (hk' : k' ∈ shipped)
    (h : k.fullName = k'.fullName) : k = k' := by
  -- the names do not depend on the memory, so they can be compared
  have hnodup : ((shipped : List (RuleKind σ)).map RuleKind.fullName).Nodup := by
    change [Unparsable.profile.fullName, EmptyExpression.profile.fullName,
      RedundantParentheses.profile.fullName, AsciiIdentifiers.profile.fullName,
      TrailingWhitespace.profile.fullName].Nodup
    decide
  obtain ⟨i, hi, rfl⟩ := List.mem_iff_getElem.mp hk
  obtain ⟨j, hj, rfl⟩ := List.mem_iff_getElem.mp hk'
  rw [← List.getElem_map RuleKind.fullName (h := by rwa [List.length_map]),
    ← List.getElem_map RuleKind.fullName (h := by rwa [List.length_map]),
    List.getElem_inj hnodup] at h
  subst h
  rfl

theorem exists_of_detectNodes {find : RuleConfig → View → List Node → List Issue} {c : RuleConfig}
    {v : View} {memory : σ} {found : List Issue}
    (h : (Rule.detectNodes find c v memory).answer = .ok (some found)) :
    ∃ p, v.parsed = .ok p ∧ found = find c v p.nodes := by
  change (v.nodes.map fun ns => some (find c v ns)) = .ok (some found) at h
  unfold View.nodes at h
  cases hp : v.parsed with
  -- without an outcome of parsing the rule fails
  | error f =>
    rw [hp] at h
    cases h
  | ok p =>
    rw [hp] at h
    cases h
    exact ⟨p, rfl, rfl⟩

/-- **What the rules of the library hand over** bears the name of the rule and is new. If it can be
corrected, it is a run of blanks or the range of a node of parentheses. -/
theorem finds_cases {r : Rule σ} (hr : r.kind ∈ shipped) {v : View} {i : Issue}
    (h : r.Finds v i) :
    i.rule = r.fullName ∧ i.IsNew ∧
      (i.correctable = true →
        (r.kind = trailingWhitespace ∧
          ∃ range ∈ TrailingWhitespace.runs v.bytes, i.start = range.1 ∧ i.stop = range.2) ∨
        (r.kind = redundantParentheses ∧
          ∃ p n, v.parsed = .ok p ∧ n ∈ p.nodes ∧ n.kind = parenthesesKind ∧ i.start = n.start ∧
            i.stop = n.stop)) := by
  obtain ⟨kind, config⟩ := r
  obtain ⟨memory, found, hans, hi⟩ := h
  simp only [shipped, List.mem_cons, List.not_mem_nil, or_false] at hr
  rcases hr with rfl | rfl | rfl | rfl | rfl
  · -- text that does not parse
    change (v.parsed.map fun p => some (Unparsable.find config v p)) = _ at hans
    cases hp : v.parsed with
    | error f =>
      rw [hp] at hans
      cases hans
    | ok p =>
      rw [hp] at hans
      cases hans
      unfold Unparsable.find at hi
      split at hi
      · cases hi
      · rw [List.mem_singleton.mp hi]
        exact ⟨rfl, ⟨rfl, rfl⟩, fun hc => by cases hc⟩
  · -- empty expressions
    obtain ⟨p, -, rfl⟩ := exists_of_detectNodes hans
    obtain ⟨n, -, rfl⟩ := List.mem_map.mp hi
    exact ⟨rfl, ⟨rfl, rfl⟩, fun hc => by cases hc⟩
  · -- parentheses: the node is a child of the one that was looked at
    obtain ⟨p, hp, rfl⟩ := exists_of_detectNodes hans
    obtain ⟨n, hn, rfl⟩ := List.mem_map.mp hi
    obtain ⟨parent, hparent, hreported⟩ := List.mem_filterMap.mp hn
    obtain ⟨hchild, hkind⟩ := RedundantParentheses.of_reported? hreported
    refine ⟨rfl, ⟨rfl, rfl⟩, fun _ => .inr ⟨rfl, p, n, hp, ?_, hkind, rfl, rfl⟩⟩
    exact Parsed.mem_nodes_of_child hparent hchild
  · -- identifiers
    obtain ⟨p, -, rfl⟩ := exists_of_detectNodes hans
    obtain ⟨n, -, rfl⟩ := List.mem_map.mp hi
    exact ⟨rfl, ⟨rfl, rfl⟩, fun hc => by cases hc⟩
  · -- blanks
    cases hans
    obtain ⟨range, hrange, rfl⟩ := List.mem_map.mp hi
    exact ⟨rfl, ⟨rfl, rfl⟩, fun _ => .inl ⟨rfl, range, hrange, rfl, rfl⟩⟩

theorem findsNew {r : Rule σ} (hr : r.kind ∈ shipped) : r.FindsNew :=
  fun _ _ h => (finds_cases hr h).2.1

theorem of_proposeEdit {start stop : Int} {text : String} {edit : Edit}
    (h : Rule.proposeEdit start stop text = .ok (some edit)) :
    (edit.start : Int) = start ∧ (edit.stop : Int) = stop ∧ edit.replacement = text := by
  unfold Rule.proposeEdit Edit.make at h
  split at h
  · next e he =>
    split at he
    · -- the offsets are not negative, so they are those of the edit
      next hrange =>
      cases he
      cases h
      refine ⟨?_, ?_, rfl⟩
      · exact Int.toNat_of_nonneg hrange.1
      · exact Int.toNat_of_nonneg (Int.le_trans hrange.1 hrange.2)
    · cases he
  · cases h

theorem of_verdict {size : Nat} {i : Issue} {answer : Except Fault (Option Edit)} {edit : Edit}
    (h : Correction.verdict size i answer = .ok (some edit)) : answer = .ok (some edit) := by
  unfold Correction.verdict at h
  split at h
  · cases h
  · cases h
  · next e =>
    -- the check lets an edit pass as it is, or not at all
    cases hc : Correction.checkBounds size i e with
    | error f =>
      rw [hc] at h
      cases h
    | ok u =>
      rw [hc] at h
      cases h
      rfl

/-- **An edit of the rule on blanks** takes away a run of them. -/
theorem mends_of_mem_runs {bs : Bytes} {range : Nat × Nat}
    (h : range ∈ TrailingWhitespace.runs bs) {edit : Edit}
    (hp : Rule.proposeEdit (range.1 : Int) (range.2 : Int) "" = .ok (some edit)) :
    ∃ old, edit.Replaces bs old ∧
      Mends TrailingWhitespace.profile.fullName old edit.octets ∧ old ≠ [] := by
  obtain ⟨hs, he, htext⟩ := of_proposeEdit hp
  obtain ⟨before, blanks, after, hbs, hrs, hre, hne, hall⟩ :=
    TrailingWhitespace.isRun_of_mem_runs h
  -- nothing takes the place of the blanks
  have hoctets : edit.octets = [] := by
    rw [Edit.octets, htext]
    rfl
  refine ⟨blanks, ⟨before, after, hbs, by omega, by omega⟩, ?_, hne⟩
  rw [hoctets]
  exact .trim blanks hall

/-- **An edit of the rule on parentheses** takes away two parentheses, unless its range is empty. -/
theorem mends_of_propose {v : View} (ht : Utf8.IsText v.bytes) {start stop : Nat} {edit : Edit}
    (h : RedundantParentheses.propose v start stop = .ok (some edit)) :
    ∃ old, edit.Replaces v.bytes old ∧
      Mends RedundantParentheses.profile.fullName old edit.octets ∧ (start < stop → old ≠ []) := by
  unfold RedundantParentheses.propose at h
  split at h
  · next hparens =>
    obtain ⟨hopen, hclose⟩ := hparens
    obtain ⟨hs, he, htext⟩ := of_proposeEdit h
    have hle := edit.start_le_stop
    obtain ⟨left, right, hoctets⟩ := RedundantParentheses.encode_unwrapped v start stop
    rw [← Utf8.ofString_ofList, ← htext] at hoctets
    change edit.octets = _ at hoctets
    rw [hoctets]
    -- The check also passes an empty range with a closing parenthesis before it and an opening one
    -- behind it.
    obtain ⟨hlength, hcases⟩ := range_cases (by decide) (by omega) hopen hclose
    have hbefore : (v.bytes.take start).length = start := by
      rw [List.length_take]
      omega
    rcases hcases with ⟨rfl, hinner⟩ | ⟨inner, hinner, hsplit, hstop⟩
    · -- the range is empty, and nothing stands between its ends
      have hnone : Utf8.encode (Utf8.decodeLossy []) = [] := rfl
      rw [hinner, hnone, List.append_nil]
      refine ⟨[], ⟨v.bytes.take start, v.bytes.drop start, ?_, ?_, ?_⟩, .pad left right,
        fun hlt => absurd hlt (Nat.lt_irrefl _)⟩
      · rw [List.append_nil, List.take_append_drop]
      · omega
      · rw [List.length_nil]
        omega
    · -- what the parentheses hold is text
      rw [hsplit] at ht
      rw [hinner, Utf8.encode_decodeLossy (Utf8.isText_between (by decide) (by decide) ht)]
      refine ⟨_, ⟨v.bytes.take start, v.bytes.drop stop, ?_, ?_, ?_⟩, .unwrap inner left right,
        fun _ => List.cons_ne_nil _ _⟩
      · rw [List.append_assoc, List.cons_append, List.append_assoc, List.singleton_append]
        exact hsplit
      · omega
      · rw [List.length_cons, List.length_append, List.length_singleton]
        omega
  · cases h

/-- **Who is asked about an issue that a rule of the library found**: a rule of the same kind. The
issue is a run of blanks or the range of a node of parentheses. -/
theorem answerer_cases {rules : List (Rule σ)} (hr : ∀ r ∈ rules, r.kind ∈ shipped) {v : View}
    {i : Issue} (hfind : ∃ r ∈ rules, r.Finds v i) {rule : Rule σ}
    (ha : Correction.answerer rules i = some rule) :
    i.rule = rule.fullName ∧
      ((rule.kind = trailingWhitespace ∧
          ∃ range ∈ TrailingWhitespace.runs v.bytes, i.start = range.1 ∧ i.stop = range.2) ∨
        (rule.kind = redundantParentheses ∧
          ∃ p n, v.parsed = .ok p ∧ n ∈ p.nodes ∧ n.kind = parenthesesKind ∧ i.start = n.start ∧
            i.stop = n.stop)) := by
  obtain ⟨r, hrmem, hfinds⟩ := hfind
  obtain ⟨hpend, hrule⟩ := Correction.answerer_eq_some.mp ha
  obtain ⟨hname, -, hcases⟩ := finds_cases (hr r hrmem) hfinds
  have hmem := Correction.mem_of_answerer ha
  have hbeq := List.find?_some hrule
  rw [beq_iff_eq] at hbeq
  -- the name tells the kind
  have hkind : rule.kind = r.kind :=
    eq_of_fullName (hr rule hmem) (hr r hrmem) (hbeq.trans hname)
  have hcorrectable : i.correctable = true := by
    rw [Issue.isPending, Bool.and_eq_true] at hpend
    exact hpend.1
  rw [hkind]
  exact ⟨hbeq.symm, hcases hcorrectable⟩

/-- **The corrections of the library's rules.** An edit that is proposed for an issue which one of
them found mends the text in one of the listed ways. It takes something away if the nodes of
parentheses fit the text. -/
theorem mends_of_proposes {rules : List (Rule σ)} (hr : ∀ r ∈ rules, r.kind ∈ shipped)
    {v v' : View} (hbytes : v'.bytes = v.bytes) (ht : Utf8.IsText v.bytes) {i : Issue} {edit : Edit}
    (hfind : ∃ r ∈ rules, r.Finds v i) (hp : Correction.Proposes rules v' i edit) :
    ∃ old, edit.Replaces v.bytes old ∧ Mends i.rule old edit.octets ∧ (v.Fits → old ≠ []) := by
  obtain ⟨rule, memory, hans, hverdict⟩ := hp
  obtain ⟨hname, hcases⟩ := answerer_cases hr hfind hans
  have hanswer := of_verdict hverdict
  rw [Rule.correct] at hanswer
  rw [hname, Rule.fullName]
  rcases hcases with ⟨hk, range, hrange, hs, he⟩ | ⟨hk, p, n, hparsed, hn, hnk, hs, he⟩
  · -- blanks at the end of a line
    rw [hk] at hanswer ⊢
    change Rule.proposeEdit i.start i.stop "" = .ok (some edit) at hanswer
    rw [hs, he] at hanswer
    obtain ⟨old, hreplaces, hmend, hne⟩ := mends_of_mem_runs hrange hanswer
    exact ⟨old, hreplaces, hmend, fun _ => hne⟩
  · -- parentheses: that the range is not empty is known of nodes that fit
    rw [hk] at hanswer ⊢
    change RedundantParentheses.propose v' i.start i.stop = .ok (some edit) at hanswer
    rw [hs, he] at hanswer
    have hmends := mends_of_propose (hbytes ▸ ht) hanswer
    rw [hbytes] at hmends
    obtain ⟨old, hreplaces, hmend, hne⟩ := hmends
    exact ⟨old, hreplaces, hmend, fun hfits => hne (hfits p hparsed n hn hnk).1⟩

end Rules

end Lintel
