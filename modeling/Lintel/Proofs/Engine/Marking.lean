import Lintel.Proofs.Engine.Accounting
import Lintel.Proofs.Engine.Isolation

/-!
# Markings

An issue begins its life as a reported one, when a rule hands it over in a pass. Three parts of the
engine may then give it another status: a suppression comment disables it, the pass of correction
marks it as corrected or as a conflict, and the loop marks it as left over when the budget is used
up. All of them write the same field, in different turns. That they never get in each other's way is
the subject of this module.

What happens to the issues of a pass is a list of **markings** (`Engine.markingsOf`), each with the
issues before and after. The markings are `Orderly`: the first is applied to issues that are all
new, each of the others to what the one before has left, and each gives its status to reported
issues only. So no entry is marked twice (`Orderly.countP_changes_le_one`).

What is marked are entries of lists, but what a status belongs to is an object (`ObjectId`). An
issue without a name is told apart from others by the number of its pass and by its position there.
An issue with a name may stand in several places, and whatever a marking does at one of them it does
to this object. The statuses that an object is given in a run (`Engine.statusesOf`) are therefore
gathered over all places. If rules hand over new issues, there is one at most
(`statusesOf_of_orderly`).

`Living` says of the machine that the markings of every pass are orderly and that what it keeps are
issues as the markings of their pass have left them. A pass of correction marks the pass before it;
once the source has been revised, no issue of that pass is marked again.
-/

namespace Lintel

/-- A moment at which the issues of a pass may be given a status. -/
structure Marking where
  /-- The number of the pass. The first pass has the number one. -/
  pass : Nat
  status : Status
  before : List Issue
  after : List Issue

/-- What tells an issue apart as an object: the name it bears, or the number of its pass and its
position there. -/
inductive ObjectId where
  | named (name : Nat)
  | own (pass position : Nat)
  deriving DecidableEq, Repr

namespace Marking

def changes (k : Nat) (x : Marking) : Bool :=
  x.after[k]? != x.before[k]?

def objectAt (k : Nat) (x : Marking) : ObjectId :=
  match x.before[k]?.bind (·.object) with
  | some name => .named name
  | none => .own x.pass k

/-- What the marking gives to an object: its status, once for each place where the object is
changed. -/
def given (o : ObjectId) (x : Marking) : List Status :=
  ((List.range x.before.length).filter fun k => x.changes k && x.objectAt k == o).map
    fun _ => x.status

/-- The marking gives its status, which is not the one to begin with, to reported issues, and leaves
all others alone. -/
structure Fair (x : Marking) : Prop where
  status_ne : x.status ≠ .reported
  marks : ∀ k : Nat, x.after[k]? = x.before[k]? ∨
    ∃ i : Issue, x.before[k]? = some i ∧ i.status = .reported ∧
      x.after[k]? = some (i.withStatus x.status)

/-- The issues as the markings have left them. -/
def outcome (xs : List Marking) : List Issue :=
  (xs.getLast?.map (·.after)).getD []

@[simp] theorem outcome_concat (xs : List Marking) (x : Marking) :
    outcome (xs ++ [x]) = x.after := by
  rw [outcome, List.getLast?_concat]
  rfl

/-- **Markings that belong together.** The first is applied to new issues, and each of the others to
what is left by the one before. -/
inductive Orderly : List Marking → Prop where
  | nil : Orderly []
  | first {x : Marking} (hf : x.Fair) (hn : ∀ i ∈ x.before, i.IsNew) : Orderly [x]
  | next {xs : List Marking} {x : Marking} (h : Orderly xs) (hf : x.Fair)
      (hb : x.before = outcome xs) : Orderly (xs ++ [x])

/-- An issue is reported as long as it has not been changed, and it is changed once at most. -/
theorem Orderly.status {xs : List Marking} (h : Orderly xs) (k : Nat) :
    (xs.countP (changes k) = 0 ∧ ∀ i, (outcome xs)[k]? = some i → i.status = .reported) ∨
      (xs.countP (changes k) = 1 ∧ ∃ i, (outcome xs)[k]? = some i ∧ i.status ≠ .reported) := by
  -- the last marking is applied to issues of which the claim holds already
  have hlast : ∀ (x : Marking), x.Fair → ∀ n : Nat,
      (n = 0 ∧ ∀ i, x.before[k]? = some i → i.status = .reported) ∨
        (n = 1 ∧ ∃ i, x.before[k]? = some i ∧ i.status ≠ .reported) →
      (n + [x].countP (changes k) = 0 ∧ ∀ i, x.after[k]? = some i → i.status = .reported) ∨
        (n + [x].countP (changes k) = 1 ∧ ∃ i, x.after[k]? = some i ∧ i.status ≠ .reported) := by
    intro x hf n hn
    rcases hf.marks k with hsame | ⟨i, hi, hreported, hafter⟩
    · have hno : [x].countP (changes k) = 0 := by simp [changes, hsame]
      rw [hno, hsame]
      exact hn
    · -- this marking changes the issue, which was reported until now
      rcases hn with ⟨rfl, -⟩ | ⟨-, j, hj, hnot⟩
      · have hyes : [x].countP (changes k) = 1 := by
          have hne : i.withStatus x.status ≠ i := by
            intro heq
            have hstatus := congrArg Issue.status heq
            rw [hreported] at hstatus
            exact hf.status_ne hstatus
          simp [changes, hi, hafter, hne]
        exact .inr ⟨by rw [hyes], _, hafter, hf.status_ne⟩
      · rw [hi] at hj
        cases hj
        exact absurd hreported hnot
  induction h with
  | nil => exact .inl ⟨rfl, fun i hi => by cases hi⟩
  | @first x hf hn =>
    have h := hlast x hf 0 (.inl ⟨rfl, fun i hi => (hn i (List.mem_of_getElem? hi)).status⟩)
    rwa [Nat.zero_add] at h
  | @next xs x _ hf hb ih =>
    rw [← hb] at ih
    rw [List.countP_append, outcome_concat]
    exact hlast x hf _ ih

/-- **An issue is changed once at most.** -/
theorem Orderly.countP_changes_le_one {xs : List Marking} (h : Orderly xs) (k : Nat) :
    xs.countP (changes k) ≤ 1 := by
  rcases h.status k with ⟨hk, -⟩ | ⟨hk, -⟩ <;> omega

theorem Orderly.fair {xs : List Marking} (h : Orderly xs) : ∀ x ∈ xs, x.Fair := by
  induction h with
  | nil => exact fun x hx => absurd hx List.not_mem_nil
  | first hf => exact fun y hy => List.mem_singleton.mp hy ▸ hf
  | next _ hf _ ih =>
    intro y hy
    -- The last marking is fair by itself, those before it by induction.
    rcases List.mem_append.mp hy with hy | hy
    · exact ih y hy
    · exact List.mem_singleton.mp hy ▸ hf

theorem Fair.object_after {x : Marking} (hf : x.Fair) (h : ∀ i ∈ x.before, i.object = none) :
    ∀ i ∈ x.after, i.object = none := by
  intro i hi
  obtain ⟨k, hk⟩ := List.mem_iff_getElem?.mp hi
  -- the entry is as before, or has another status and nothing else
  rcases hf.marks k with hsame | ⟨j, hj, -, hafter⟩
  · rw [hsame] at hk
    exact h i (List.mem_of_getElem? hk)
  · rw [hafter] at hk
    cases hk
    exact h j (List.mem_of_getElem? hj)

/-- Issues that were new when the markings began are objects of their own all along. -/
theorem Orderly.object_eq_none {xs : List Marking} (h : Orderly xs) :
    (∀ x ∈ xs, ∀ i ∈ x.before, i.object = none) ∧ ∀ i ∈ outcome xs, i.object = none := by
  induction h with
  | nil => exact ⟨fun x hx => absurd hx List.not_mem_nil, fun i hi => absurd hi List.not_mem_nil⟩
  | @first x hf hn =>
    have hbefore : ∀ i ∈ x.before, i.object = none := fun i hi => (hn i hi).object
    refine ⟨fun y hy => ?_, hf.object_after hbefore⟩
    rw [List.mem_singleton.mp hy]
    exact hbefore
  -- the next marking begins with what the ones before came to
  | @next xs x _ hf hb ih =>
    have hbefore : ∀ i ∈ x.before, i.object = none := hb ▸ ih.2
    refine ⟨fun y hy => ?_, ?_⟩
    · rcases List.mem_append.mp hy with hy | hy
      · exact ih.1 y hy
      · rw [List.mem_singleton.mp hy]
        exact hbefore
    · rw [outcome_concat]
      exact hf.object_after hbefore

theorem objectAt_of_unnamed {x : Marking} (h : ∀ i ∈ x.before, i.object = none) (k : Nat) :
    x.objectAt k = .own x.pass k := by
  unfold objectAt
  cases hk : x.before[k]? with
  | none => rfl
  | some i => rw [Option.bind_some, h i (List.mem_of_getElem? hk)]

/-- Where no issue bears a name, a marking reaches each object in one place. -/
theorem length_given_le {x : Marking} (h : ∀ i ∈ x.before, i.object = none) (n k : Nat) :
    (x.given (.own n k)).length ≤ if x.pass = n ∧ x.changes k = true then 1 else 0 := by
  rw [given, List.length_map, ← List.countP_eq_length_filter]
  split
  · -- no entry bears a name, so the object is at its own place only
    calc (List.range x.before.length).countP (fun j => x.changes j && x.objectAt j == .own n k)
        ≤ (List.range x.before.length).count k := by
          refine List.countP_mono_left fun j _ hj => ?_
          rw [objectAt_of_unnamed h] at hj
          simp only [Bool.and_eq_true, beq_iff_eq, ObjectId.own.injEq] at hj
          exact beq_iff_eq.mpr hj.2.2
      _ ≤ 1 := List.nodup_iff_count.mp List.nodup_range k
  · -- another pass, or a place that is not changed: nothing is given
    next hnot =>
    refine Nat.le_of_eq (List.countP_eq_zero.mpr fun j _ hj => hnot ?_)
    rw [objectAt_of_unnamed h] at hj
    simp only [Bool.and_eq_true, beq_iff_eq, ObjectId.own.injEq] at hj
    obtain ⟨hchanges, hpass, rfl⟩ := hj
    exact ⟨hpass, hchanges⟩

theorem given_named {x : Marking} (h : ∀ i ∈ x.before, i.object = none) (name : Nat) :
    x.given (.named name) = [] := by
  rw [given, List.map_eq_nil_iff, List.filter_eq_nil_iff]
  intro j _ hj
  rw [objectAt_of_unnamed h] at hj
  simp at hj

/-- Where no issue bears a name, the markings of one pass give an object a status where they change
it, and those of other passes give it none. -/
theorem length_flatMap_given_le {xs : List Marking}
    (h : ∀ x ∈ xs, ∀ i ∈ x.before, i.object = none) (n k : Nat) :
    (xs.flatMap (given (.own n k))).length ≤ (xs.filter (·.pass == n)).countP (changes k) := by
  induction xs with
  | nil => exact Nat.le_refl 0
  | cons x xs ih =>
    have hx := length_given_le (h x List.mem_cons_self) n k
    have hrest := ih fun y hy => h y (List.mem_cons_of_mem _ hy)
    rw [List.countP_filter] at hrest ⊢
    rw [List.flatMap_cons, List.length_append, List.countP_cons, Nat.add_comm]
    -- one marking adds a status at most, and only where it changes the entry
    refine Nat.add_le_add hrest (Nat.le_trans hx (Nat.le_of_eq ?_))
    simp only [Bool.and_eq_true, beq_iff_eq, and_comm]

theorem fair_map {n : Nat} {status : Status} (hs : status ≠ .reported) {issues : List Issue}
    {p : Issue → Bool} (hp : ∀ i ∈ issues, p i = true → i.status = .reported) :
    Fair ⟨n, status, issues, issues.map fun i => if p i then i.withStatus status else i⟩ where
  status_ne := hs
  marks k := by
    simp only [List.getElem?_map]
    -- An entry of the list is either spared by the test or REPORTED before it.
    cases hk : issues[k]? with
    | none => exact .inl rfl
    | some i =>
      cases hpi : p i with
      | false => exact .inl (by simp [hpi])
      | true => exact .inr ⟨i, rfl, hp i (List.mem_of_getElem? hk) hpi, by simp [hpi]⟩

theorem fair_same {n : Nat} {status : Status} (hs : status ≠ .reported) (issues : List Issue) :
    Fair ⟨n, status, issues, issues⟩ :=
  ⟨hs, fun _ => .inl rfl⟩

theorem fair_mark {n : Nat} {status : Status} (hs : status ≠ .reported) {issues : List Issue}
    {positions : List Nat}
    (hp : ∀ k ∈ positions, ∃ i, issues[k]? = some i ∧ i.status = .reported) :
    Fair ⟨n, status, issues, Correction.mark positions status issues⟩ where
  status_ne := hs
  marks k := by
    by_cases hk : k ∈ positions
    · obtain ⟨i, hi, hreported⟩ := hp k hk
      exact .inr ⟨i, hi, hreported, by rw [Correction.getElem?_mark_of_mem hk, hi]; rfl⟩
    · exact .inl (Correction.getElem?_mark_of_not_mem hk)

end Marking

/-! ### What a pass of correction marks -/

namespace Correction

variable {σ : Type} (rules : List (Rule σ)) (source : Source) (v : View) (issues : List Issue)
  (w : World σ)

theorem mark_nil (status : Status) (issues : List Issue) : mark [] status issues = issues := by
  apply List.ext_getElem?
  intro k
  exact getElem?_mark_of_not_mem List.not_mem_nil

/-- A pass of correction marks the issues that lost, then those that were corrected, and changes no
others. -/
theorem apply_issues :
    (apply rules source v issues w).issues
      = mark (apply rules source v issues w).corrected .corrected
          (mark (apply rules source v issues w).conflicts .conflict issues) := by
  unfold apply
  simp only
  -- Without proposals nothing is marked, and after a failed decode the conflicts only.
  split
  · rw [mark_nil, mark_nil]
  · split
    · rw [mark_nil]
    · rfl

theorem exists_of_mem_conflicts {k : Nat} (h : k ∈ (apply rules source v issues w).conflicts) :
    ∃ i, issues[k]? = some i ∧ i.isPending = true := by
  -- whether or not the outcome was text, the conflicts are the rejected proposals
  have hindex : k ∈ (select (gatherFrom rules v 0 issues w).proposals).2.map (·.index) := by
    unfold apply at h
    simp only at h
    split at h
    · cases h
    · split at h
      · exact h
      · exact h
  obtain ⟨p, hp, rfl⟩ := List.mem_map.mp hindex
  obtain ⟨i, hi, -, hpend⟩ := exists_issue_of_mem_proposals rules v issues w
    (mem_proposals_of_mem_rejected rules v issues w hp)
  exact ⟨i, hi, hpend⟩

/-- The positions of the corrected issues are those of pending issues, and not those of
conflicts. -/
theorem exists_of_mem_corrected {k : Nat} (h : k ∈ (apply rules source v issues w).corrected) :
    ∃ i, (mark (apply rules source v issues w).conflicts .conflict issues)[k]? = some i ∧
      i.isPending = true := by
  unfold apply at h ⊢
  simp only at h ⊢
  split at h
  · cases h
  · next hne =>
    rw [if_neg hne]
    split at h
    · cases h
    · next hd =>
      obtain ⟨p, hp, rfl⟩ := List.mem_map.mp h
      obtain ⟨i, hi, -, hpend⟩ := exists_issue_of_mem_proposals rules v issues w
        (mem_proposals_of_mem_accepted rules v issues w hp)
      refine ⟨i, ?_, hpend⟩
      -- no issue has an edit that was accepted and one that was rejected
      rw [getElem?_mark_of_not_mem fun hmem => ?_, hi]
      obtain ⟨q, hq, heq⟩ := List.mem_map.mp hmem
      exact index_ne_of_mem rules v issues w hp hq heq.symm

end Correction

namespace Engine

variable {σ : Type} {e : Engine σ} {ac : Bool}

/-! ### What a pass is handed -/

/-- The issues of a pass as the rules hand them over. -/
def handed (e : Engine σ) (s : Source) (w : World σ) : List Issue :=
  let (v, _, w) := s.view e.parser w
  match v.parsed with
  | .error _ => []
  | .ok p =>
    if p.isValid then byStart ((detectAll v (e.applicable v.path) w).1.flatMap (·.found))
    else findings v e.parseRule w.memory

theorem exists_of_mem_detectAll {v : View} {rs : List (Rule σ)} {w : World σ} {i : Issue}
    (h : i ∈ (detectAll v rs w).1.flatMap (·.found)) :
    ∃ r ∈ rs, ∃ memory, i ∈ findings v r memory := by
  induction rs generalizing w with
  | nil => cases h
  | cons r rs ih =>
    rw [detectAll_cons, List.flatMap_cons, detectWith_found] at h
    rcases List.mem_append.mp h with h | h
    · exact ⟨r, List.mem_cons_self, w.memory, h⟩
    · -- of a later rule, asked in the memory that this one left
      obtain ⟨r', hr', hfound⟩ := ih h
      exact ⟨r', List.mem_cons_of_mem _ hr', hfound⟩

theorem isNew_of_mem_handed (he : ∀ rule ∈ e.correctors, rule.FindsNew) {s : Source}
    {w : World σ} {i : Issue} (h : i ∈ e.handed s w) : i.IsNew := by
  -- whoever was asked answers for corrections as well
  have hfindings : ∀ {v : View} {r : Rule σ} {memory : σ}, r ∈ e.correctors →
      i ∈ findings v r memory → i.IsNew := fun hr hi =>
    he _ hr _ i ⟨_, _, detect_of_mem_findings hi, hi⟩
  unfold handed at h
  simp only at h
  split at h
  · cases h
  · split at h
    · obtain ⟨r, hr, memory, hi⟩ := exists_of_mem_detectAll (mem_byStart.mp h)
      exact hfindings (mem_correctors.mpr (.inl (List.mem_filter.mp hr).1)) hi
    · exact hfindings (mem_correctors.mpr (.inr rfl)) h

/-- A completed pass silences what it is handed, or leaves it as it is. -/
theorem issues_of_analyze {s : Source} {w : World σ} {a : Analysis}
    (ha : (e.analyze s w).1 = .ok a) :
    a.issues = silence (s.view e.parser w).1.text (e.handed s w) ∨ a.issues = e.handed s w := by
  unfold analyze at ha
  unfold handed
  simp only at ha ⊢
  cases hp : (s.view e.parser w).1.parsed with
  | error f =>
    rw [hp] at ha
    cases ha
  | ok p =>
    rw [hp] at ha
    simp only at ha ⊢
    -- A text that parses is gone through by all rules and its comments silence issues; one that
    -- does not has the issues of the rule on parsing, and they are not silenced.
    split at ha
    · next hvalid =>
      cases ha
      rw [if_pos hvalid]
      exact .inl rfl
    · next hbroken =>
      rw [if_neg hbroken]
      unfold analyzeBroken at ha
      simp only at ha
      split at ha
      · cases ha
      · cases ha
      · next found hfound =>
        cases ha
        unfold findings
        rw [hfound]
        exact .inr rfl

/-! ### The markings of a run -/

/-- The markings in the turn from a state. A pass silences what it is handed, and what is pending
may be left over; a pass of correction marks conflicts and then what it corrects. -/
def markingsFrom (e : Engine σ) (ac : Bool) (t : Machine × World σ) : List Marking :=
  if t.2.cancelled then []
  else
    match t.1.stage, (e.analyze t.1.source t.2).1 with
    | .analyzing, .ok a =>
      [⟨t.1.passes + 1, .disabled, e.handed t.1.source t.2, a.issues⟩,
        ⟨t.1.passes + 1, .unresolved, a.issues, (e.step ac t.1 t.2).machine.issues⟩]
    | .correcting, _ =>
      let c := e.correction t.1 t.2
      let lost := Correction.mark c.conflicts .conflict t.1.issues
      [⟨t.1.passes, .conflict, t.1.issues, lost⟩, ⟨t.1.passes, .corrected, lost, c.issues⟩]
    | _, _ => []

/-- The markings of the issues of one pass, in the turns from some states. -/
def markingsOf (e : Engine σ) (ac : Bool) (past : List (Machine × World σ)) (n : Nat) :
    List Marking :=
  (past.flatMap (e.markingsFrom ac)).filter (·.pass == n)

/-- The statuses that an object is given in the turns from some states, in order. -/
def statusesOf (e : Engine σ) (ac : Bool) (past : List (Machine × World σ)) (o : ObjectId) :
    List Status :=
  (past.flatMap (e.markingsFrom ac)).flatMap (Marking.given o)

/-- **An object is given one status at most**, and not the one it has to begin with, if the markings
of all passes are orderly. -/
theorem statusesOf_of_orderly {past : List (Machine × World σ)}
    (h : ∀ n, Marking.Orderly (e.markingsOf ac past n)) (o : ObjectId) :
    (e.statusesOf ac past o).length ≤ 1 ∧ .reported ∉ e.statusesOf ac past o := by
  have hmem : ∀ x ∈ past.flatMap (e.markingsFrom ac), x ∈ e.markingsOf ac past x.pass :=
    fun x hx => List.mem_filter.mpr ⟨hx, beq_self_eq_true _⟩
  have hunnamed : ∀ x ∈ past.flatMap (e.markingsFrom ac), ∀ i ∈ x.before, i.object = none :=
    fun x hx => (h x.pass).object_eq_none.1 x (hmem x hx)
  constructor
  · cases o with
    -- no object is named, so nobody gives a status to one of this name
    | named name =>
      have hnone : e.statusesOf ac past (.named name) = [] :=
        List.flatMap_eq_nil_iff.mpr fun x hx => Marking.given_named (hunnamed x hx) name
      rw [hnone]
      exact Nat.zero_le 1
    -- only its own pass reaches it, and the markings of a pass change a place once
    | own n k =>
      exact Nat.le_trans (Marking.length_flatMap_given_le hunnamed n k)
        ((h n).countP_changes_le_one k)
  · -- the status that a marking gives is never the one to begin with
    intro hgiven
    obtain ⟨x, hx, hgiven⟩ := List.mem_flatMap.mp hgiven
    obtain ⟨k, -, hstatus⟩ := List.mem_map.mp hgiven
    exact ((h x.pass).fair x (hmem x hx)).status_ne hstatus

theorem markingsOf_snoc (past : List (Machine × World σ)) (t : Machine × World σ) (n : Nat) :
    e.markingsOf ac (past ++ [t]) n
      = e.markingsOf ac past n ++ (e.markingsFrom ac t).filter (·.pass == n) := by
  rw [markingsOf, List.flatMap_append, List.flatMap_singleton, List.filter_append, markingsOf]

theorem markingsOf_snoc_nil (past : List (Machine × World σ)) {t : Machine × World σ}
    (h : e.markingsFrom ac t = []) (n : Nat) :
    e.markingsOf ac (past ++ [t]) n = e.markingsOf ac past n := by
  rw [markingsOf_snoc, h, List.filter_nil, List.append_nil]

/-- A turn with two markings adds them to those of their pass. -/
theorem markingsOf_snoc_pair (past : List (Machine × World σ)) {t : Machine × World σ}
    {x y : Marking} (h : e.markingsFrom ac t = [x, y]) (hy : y.pass = x.pass) :
    e.markingsOf ac (past ++ [t]) x.pass = e.markingsOf ac past x.pass ++ [x] ++ [y] ∧
      ∀ n ≠ x.pass, e.markingsOf ac (past ++ [t]) n = e.markingsOf ac past n := by
  refine ⟨?_, fun n hn => ?_⟩
  · rw [markingsOf_snoc, h, List.append_assoc, List.filter_eq_self.mpr (by simp [hy])]
    rfl
  · rw [markingsOf_snoc, h, List.filter_eq_nil_iff.mpr (by simp [hy, hn.symm]), List.append_nil]

section Turn

variable {m : Machine} {w : World σ}

theorem markingsFrom_of_cancelled (hc : w.cancelled = true) : e.markingsFrom ac (m, w) = [] := by
  rw [markingsFrom, if_pos hc]

theorem markingsFrom_of_error {f : Fault} (hs : m.stage = .analyzing)
    (ha : (e.analyze m.source w).1 = .error f) : e.markingsFrom ac (m, w) = [] := by
  unfold markingsFrom
  simp only [hs, ha]
  split <;> rfl

theorem markingsFrom_of_reparsing (hs : m.stage = .reparsing) : e.markingsFrom ac (m, w) = [] := by
  unfold markingsFrom
  simp only [hs]
  split <;> rfl

theorem markingsFrom_of_analyze (ac : Bool) (hc : w.cancelled = false)
    (hs : m.stage = .analyzing) {a : Analysis} (ha : (e.analyze m.source w).1 = .ok a) :
    e.markingsFrom ac (m, w)
      = [⟨m.passes + 1, .disabled, e.handed m.source w, a.issues⟩,
          ⟨m.passes + 1, .unresolved, a.issues, (e.step ac m w).machine.issues⟩] := by
  unfold markingsFrom
  simp only [hc, hs, ha, Bool.false_eq_true, if_false]

theorem markingsFrom_of_correcting (ac : Bool) (hc : w.cancelled = false)
    (hs : m.stage = .correcting) :
    e.markingsFrom ac (m, w)
      = [⟨m.passes, .conflict, m.issues,
            Correction.mark (e.correction m w).conflicts .conflict m.issues⟩,
          ⟨m.passes, .corrected, Correction.mark (e.correction m w).conflicts .conflict m.issues,
            (e.correction m w).issues⟩] := by
  unfold markingsFrom
  simp only [hc, hs, Bool.false_eq_true, if_false]

end Turn

/-! ### Markings along the loop -/

/-- **What the machine keeps are issues as the markings have left them**, and the markings of every
pass are orderly. -/
structure Living (e : Engine σ) (ac : Bool) (past : List (Machine × World σ)) (m : Machine) :
    Prop where
  orderly : ∀ n, Marking.Orderly (e.markingsOf ac past n)
  later : ∀ n, m.passes < n → e.markingsOf ac past n = []
  looking : m.stage = .correcting → m.current = true
  current : m.current = true → m.issues = Marking.outcome (e.markingsOf ac past m.passes)
  settled : ∀ i, i ∈ m.corrected ∨ i ∈ m.conflicts →
    ∃ n ≤ m.passes, (m.stage = .correcting → n < m.passes) ∧
      i ∈ Marking.outcome (e.markingsOf ac past n)

theorem Living.initial (s : Source) : Living e ac [] (start ac s) where
  orderly _ := .nil
  later _ _ := rfl
  looking h := by cases h
  current _ := rfl
  settled i hi := by
    rcases hi with hi | hi <;> cases hi

/-- A completed pass is followed by orderly markings of its issues, if something is left over or
nothing is. -/
theorem Living.look {past : List (Machine × World σ)} {m : Machine} {w : World σ}
    (he : ∀ rule ∈ e.correctors, rule.FindsNew) (h : Living e ac past m)
    (hc : w.cancelled = false) (hs : m.stage = .analyzing) {a : Analysis}
    (ha : (e.analyze m.source w).1 = .ok a) {stage : Stage} (issues : List Issue)
    (converged : Bool)
    (hstep : (e.step ac m w).machine
      = { looked m (e.analyze m.source w).2.1 a with
          stage := stage, issues := issues, converged := converged })
    (hi : issues = a.issues ∨ issues = markUnresolved a.issues) :
    Living e ac (past ++ [(m, w)]) (e.step ac m w).machine := by
  have hfrom := markingsFrom_of_analyze ac hc hs ha
  obtain ⟨hsame, hothers⟩ := markingsOf_snoc_pair past hfrom rfl
  simp only [h.later (m.passes + 1) (Nat.lt_succ_self _), List.nil_append] at hsame hothers
  have hnew : ∀ i ∈ e.handed m.source w, i.IsNew := fun i hi => isNew_of_mem_handed he hi
  have hissues : (e.step ac m w).machine.issues = issues := by rw [hstep]
  rw [hissues] at hsame
  -- nothing is silenced but what was handed over, and nothing is left over but what is pending
  have hsilenced : Marking.Fair ⟨m.passes + 1, .disabled, e.handed m.source w, a.issues⟩ := by
    rcases issues_of_analyze ha with heq | heq
    · rw [heq]
      exact Marking.fair_map (by decide) fun i hi _ => (hnew i hi).status
    · rw [heq]
      exact Marking.fair_same (by decide) _
  have hleft : Marking.Fair ⟨m.passes + 1, .unresolved, a.issues, issues⟩ := by
    rcases hi with rfl | rfl
    · exact Marking.fair_same (by decide) _
    · exact Marking.fair_map (by decide) fun i _ hp => Issue.status_of_isPending hp
  refine ⟨fun n => ?_, fun n hn => ?_, fun _ => by rw [hstep]; rfl, fun _ => ?_, fun i hi => ?_⟩
  · -- this pass has its first two markings; the other passes are as before
    by_cases hn : n = m.passes + 1
    · rw [hn, hsame]
      exact .next (.first hsilenced hnew) hleft rfl
    · rw [hothers n hn]
      exact h.orderly n
  · rw [hstep] at hn
    change m.passes + 1 < n at hn
    rw [hothers n (by omega)]
    exact h.later n (by omega)
  · rw [hissues, hstep]
    change issues = Marking.outcome (e.markingsOf ac (past ++ [(m, w)]) (m.passes + 1))
    rw [hsame, Marking.outcome_concat]
  · rw [hstep] at hi ⊢
    obtain ⟨n, hn, -, hmem⟩ := h.settled i hi
    refine ⟨n, ?_, fun _ => ?_, ?_⟩
    · change n ≤ m.passes + 1
      omega
    · change n < m.passes + 1
      omega
    · rwa [hothers n (by omega)]

/-- **A pass of correction marks in order**, whatever comes of it. -/
theorem Living.correct {past : List (Machine × World σ)} {m : Machine} {w : World σ}
    (h : Living e ac past m) (hc : w.cancelled = false) (hs : m.stage = .correcting) :
    (∀ n, Marking.Orderly (e.markingsOf ac (past ++ [(m, w)]) n)) ∧
      Marking.outcome (e.markingsOf ac (past ++ [(m, w)]) m.passes) = (e.correction m w).issues ∧
      (∀ n, m.passes < n → e.markingsOf ac (past ++ [(m, w)]) n = []) ∧
      ∀ i, i ∈ m.corrected ∨ i ∈ m.conflicts →
        ∃ n ≤ m.passes, i ∈ Marking.outcome (e.markingsOf ac (past ++ [(m, w)]) n) := by
  obtain ⟨hsame, hothers⟩ :=
    markingsOf_snoc_pair past (markingsFrom_of_correcting ac hc hs) rfl
  simp only at hsame hothers
  have hlost : Marking.Fair ⟨m.passes, .conflict, m.issues,
      Correction.mark (e.correction m w).conflicts .conflict m.issues⟩ := by
    refine Marking.fair_mark (by decide) fun k hk => ?_
    obtain ⟨i, hi, hpend⟩ := Correction.exists_of_mem_conflicts _ _ _ _ _ hk
    exact ⟨i, hi, Issue.status_of_isPending hpend⟩
  -- no place is among the lost ones and the mended ones, so what is mended was pending still
  have hmended : Marking.Fair ⟨m.passes, .corrected,
      Correction.mark (e.correction m w).conflicts .conflict m.issues,
      (e.correction m w).issues⟩ := by
    rw [correction, Correction.apply_issues]
    refine Marking.fair_mark (by decide) fun k hk => ?_
    obtain ⟨i, hi, hpend⟩ := Correction.exists_of_mem_corrected _ _ _ _ _ hk
    exact ⟨i, hi, Issue.status_of_isPending hpend⟩
  refine ⟨fun n => ?_, ?_, fun n hn => ?_, fun i hi => ?_⟩
  · by_cases hn : n = m.passes
    · rw [hn, hsame]
      refine .next (.next (h.orderly m.passes) hlost (h.current (h.looking hs))) hmended ?_
      rw [Marking.outcome_concat]
    · rw [hothers n hn]
      exact h.orderly n
  · rw [hsame, Marking.outcome_concat]
  · rw [hothers n (by omega)]
    exact h.later n hn
  · -- what is kept is of earlier passes, which this one does not touch
    obtain ⟨n, hn, hlt, hmem⟩ := h.settled i hi
    have hne := hlt hs
    exact ⟨n, hn, by rwa [hothers n (by omega)]⟩

/-- A turn without a marking, in which nothing but the place in the loop and the source changes. -/
theorem Living.pass {past : List (Machine × World σ)} {m m' : Machine} {w : World σ}
    (h : Living e ac past m) (hfrom : e.markingsFrom ac (m, w) = [])
    (hs : m'.stage ≠ .correcting) (hi : m'.issues = m.issues) (hc : m'.current = m.current)
    (hp : m'.passes = m.passes) (hcorrected : m'.corrected = m.corrected)
    (hconflicts : m'.conflicts = m.conflicts) : Living e ac (past ++ [(m, w)]) m' := by
  -- no marking in this turn, so those of each pass are as before
  have hsame := markingsOf_snoc_nil past hfrom
  refine ⟨fun n => ?_, fun n hn => ?_, fun hst => absurd hst hs, fun hcur => ?_, fun i hmem => ?_⟩
  · rw [hsame]
    exact h.orderly n
  · rw [hsame]
    exact h.later n (hp ▸ hn)
  · rw [hi, hp, hsame]
    exact h.current (hc ▸ hcur)
  · rw [hcorrected, hconflicts] at hmem
    obtain ⟨n, hn, -, hmem⟩ := h.settled i hmem
    exact ⟨n, hp ▸ hn, fun hst => absurd hst hs, by rwa [hsame]⟩

/-- **A turn keeps the lives of issues in order.** -/
theorem Living.step (he : ∀ rule ∈ e.correctors, rule.FindsNew)
    {past : List (Machine × World σ)} {m m' : Machine} {w w' : World σ} (h : Living e ac past m)
    (hm : Moves e ac m w m' w') (hstep : (e.step ac m w).machine = m') :
    Living e ac (past ++ [(m, w)]) m' := by
  cases hm with
  | abort hc =>
    exact h.pass (markingsFrom_of_cancelled hc) (fun hs => by cases hs) rfl rfl rfl rfl rfl
  | settle hc hs a ha hp =>
    have hlook := h.look he hc hs ha a.issues m.converged hstep (.inl rfl)
    rwa [hstep] at hlook
  | exhaust hc hs a ha hac hp hb =>
    have hlook := h.look he hc hs ha (markUnresolved a.issues) false hstep (.inr rfl)
    rwa [hstep] at hlook
  | proceed hc hs a ha hac hp hb =>
    have hlook := h.look he hc hs ha a.issues m.converged hstep (.inl rfl)
    rwa [hstep] at hlook
  -- nothing was proposed, so the markings of the pass change nothing
  | rest hc hs hn =>
    obtain ⟨horderly, houtcome, hlater, hkept⟩ := h.correct hc hs
    have hsame : (e.correction m w).issues = m.issues := by
      rw [correction, Correction.apply_of_nil _ _ _ _ _ hn]
    refine ⟨horderly, hlater, (fun hst => by cases hst), fun _ => hsame.symm.trans houtcome.symm,
      fun i hi => ?_⟩
    obtain ⟨n, hn, hmem⟩ := hkept i hi
    exact ⟨n, hn, (fun hst => by cases hst), hmem⟩
  | revise hc hs hch hr =>
    obtain ⟨horderly, houtcome, hlater, hkept⟩ := h.correct hc hs
    -- what was corrected or lost in this pass is over, too
    have hnew : ∀ positions, ∀ i ∈ (e.correction m w).issuesAt positions,
        i ∈ Marking.outcome (e.markingsOf ac (past ++ [(m, w)]) m.passes) := by
      intro positions i hi
      obtain ⟨k, -, hk⟩ := List.mem_filterMap.mp hi
      rw [houtcome]
      exact List.mem_of_getElem? hk
    refine ⟨horderly, hlater, (fun hst => by cases hst), (fun hcur => by cases hcur),
      fun i hi => ?_⟩
    obtain ⟨n, hn, hmem⟩ : ∃ n ≤ m.passes,
        i ∈ Marking.outcome (e.markingsOf ac (past ++ [(m, w)]) n) := by
      rcases hi with hi | hi
      · rcases List.mem_append.mp hi with hi | hi
        · exact hkept i (.inl hi)
        · exact ⟨m.passes, Nat.le_refl _, hnew _ i hi⟩
      · exact ⟨m.passes, Nat.le_refl _, hnew _ i hi⟩
    exact ⟨n, hn, (fun hst => by cases hst), hmem⟩
  | reparse hc hs p hp =>
    exact h.pass (markingsFrom_of_reparsing hs) (fun hst => by cases hst) rfl rfl rfl rfl rfl

theorem Living.orderly_of_fault {past : List (Machine × World σ)} {m : Machine} {w : World σ}
    (h : Living e ac past m) (hd : m.stage ≠ .done) {f : Fault}
    (hf : (e.step ac m w).fault = some f) (n : Nat) :
    Marking.Orderly (e.markingsOf ac (past ++ [(m, w)]) n) := by
  have hnone : e.markingsFrom ac (m, w) = [] →
      Marking.Orderly (e.markingsOf ac (past ++ [(m, w)]) n) := by
    intro hfrom
    rw [markingsOf_snoc_nil past hfrom]
    exact h.orderly n
  -- only a pass of correction marks anything before it gives up
  rcases step_cases e ac hd w with ⟨hc, -⟩ | ⟨-, hs, hstep⟩ | ⟨hc, hs, -⟩ | ⟨-, hs, -⟩
  · exact hnone (markingsFrom_of_cancelled hc)
  · rw [hstep] at hf
    obtain ⟨g, hg⟩ := (analyzeStep_fault m w).mp ⟨f, hf⟩
    exact hnone (markingsFrom_of_error hs hg)
  · exact (h.correct hc hs).1 n
  · exact hnone (markingsFrom_of_reparsing hs)

end Engine

end Lintel
