import Lintel.Proofs.Engine.Comparison
import Lintel.Proofs.Engine.Gate

/-!
# A rule that always fails

A rule that fails on every text is put on record and does not disturb the others. This is said by
comparing two runs: one with a list of rules, and one with the same list into which a rule that
always fails was inserted, anywhere. The second run reports on each source what the first one
reports, up to the diagnostics, and to these it adds one for each pass over a text that parses
(`run_insert`).

The rule may keep a memory and fail in a different way each time. It must not be mistaken for
another one: no rule of the list hands over issues under its name, since it would be asked to
correct them. And the parser must not be able to tell that the rule was asked, so rules leave the
part of the memory alone that the parser keeps to.

**How.** The engine with the rule follows the one without (`follows_insert`): the rule finds
nothing, and as it has a name of its own, the same rules as before answer for corrections. Where the
rule stands in the list does not matter, because the order of findings is told from their starts and
then from the order of the rules that found any. Turns of the two engines are compared by
`Follows.step`, and by induction on the turns `Adding.finish` adds up what the rule has put on
record. What is compared next to the turns is the part of the memory, from source to source
(`Adding.takenUp_part`).
-/

namespace Lintel

variable {σ τ : Type}

def Rule.Fails (r : Rule σ) : Prop :=
  ∀ v memory, ∃ f, (r.detect v memory).answer = .error f

namespace Engine

variable {e : Engine σ} {part : σ → τ} {ac : Bool}

/-! ### What the rule adds -/

/-- Between two records lie some failures of a rule to detect, in any places. -/
def Adds (c : Rule σ) (n : Nat) (path : Option String) (ds ds' : List Diagnostic) : Prop :=
  ∃ faults : List Fault, faults.length = n ∧
    ds'.Perm (ds ++ faults.map (Diagnostic.ofFault c.fullName path .detect))

theorem Adds.none (c : Rule σ) (path : Option String) (ds : List Diagnostic) :
    Adds c 0 path ds ds :=
  ⟨[], rfl, by rw [List.map_nil, List.append_nil]⟩

/-- What is added to the parts of a record is added to the record. -/
theorem Adds.append {c : Rule σ} {n m : Nat} {path : Option String}
    {ds ds' more more' : List Diagnostic} (h : Adds c n path ds ds')
    (h' : Adds c m path more more') : Adds c (n + m) path (ds ++ more) (ds' ++ more') := by
  obtain ⟨faults, rfl, hperm⟩ := h
  obtain ⟨faults', rfl, hperm'⟩ := h'
  refine ⟨faults ++ faults', List.length_append, ?_⟩
  rw [List.map_append]
  generalize faults.map (Diagnostic.ofFault c.fullName path .detect) = xs at hperm ⊢
  generalize faults'.map (Diagnostic.ofFault c.fullName path .detect) = ys at hperm' ⊢
  -- the faults of both parts are collected at the end
  calc ds' ++ more'
      |>.Perm ((ds ++ xs) ++ (more ++ ys)) := hperm.append hperm'
    _ |>.Perm ((ds ++ more) ++ (xs ++ ys)) := by
        rw [List.append_assoc, List.append_assoc]
        refine List.Perm.append_left ds ?_
        rw [← List.append_assoc, ← List.append_assoc]
        exact List.perm_append_comm.append_right ys

theorem exists_detectWith_of_fails {c : Rule σ} (hc : c.Fails) (v : View) (w : World σ) :
    ∃ f, (detectWith v c w).1 = ⟨[], some (.ofFault c.fullName v.path .detect f)⟩ := by
  obtain ⟨f, hf⟩ := hc v w.memory
  refine ⟨f, ?_⟩
  unfold detectWith
  simp only [hf]

/-- **Among rules that are asked, one that always fails changes nothing** but the record. -/
theorem detectAll_insert {c : Rule σ} (hc : c.Fails) {before after : List (Rule σ)}
    (h : ∀ r ∈ before ++ after, r.Functional) (v : View) (w w' : World σ) :
    (detectAll v (before ++ c :: after) w').1.flatMap (·.found)
        = (detectAll v (before ++ after) w).1.flatMap (·.found) ∧
      Adds c 1 v.path ((detectAll v (before ++ after) w).1.filterMap (·.diagnostic))
        ((detectAll v (before ++ c :: after) w').1.filterMap (·.diagnostic)) := by
  have hbefore : ∀ w w' : World σ, (detectAll v before w).1 = (detectAll v before w').1 :=
    detectAll_congr fun r hr => (h r (List.mem_append_left _ hr)).detect v
  have hafter : ∀ w w' : World σ, (detectAll v after w).1 = (detectAll v after w').1 :=
    detectAll_congr fun r hr => (h r (List.mem_append_right _ hr)).detect v
  obtain ⟨f, hf⟩ := exists_detectWith_of_fails hc v (detectAll v before w').2
  rw [detectAll_append, detectAll_append, detectAll_cons, hf, hbefore w' w,
    hafter _ (detectAll v before w).2]
  -- the others have found the same before and after the rule was asked
  generalize (detectAll v before w).1 = xs
  generalize (detectAll v after (detectAll v before w).2).1 = ys
  have hadded : List.filterMap (·.diagnostic)
      (⟨[], some (.ofFault c.fullName v.path .detect f)⟩ :: ys)
      = .ofFault c.fullName v.path .detect f :: ys.filterMap (·.diagnostic) :=
    List.filterMap_cons_some rfl
  refine ⟨by simp only [List.flatMap_append, List.flatMap_cons, List.nil_append], [f], rfl, ?_⟩
  rw [List.filterMap_append, List.filterMap_append, hadded, List.append_assoc]
  exact (List.perm_append_singleton _ _).symm.append_left _

/-! ### Engines with and without the rule -/

def insert (e : Engine σ) (before : List (Rule σ)) (c : Rule σ) (after : List (Rule σ)) : Engine σ :=
  { e with rules := before ++ c :: after }

/-- How often the rule is asked about a path in a pass. -/
def turnsAt (e : Engine σ) (c : Rule σ) (path : Option String) : Nat :=
  if c.enabled && !c.excludes e.cwd path then 1 else 0

theorem ruleFor_insert {c : Rule σ} {before after : List (Rule σ)} {i : Issue}
    (h : i.rule ≠ c.fullName) :
    Correction.ruleFor (before ++ c :: after) i = Correction.ruleFor (before ++ after) i := by
  have hno : (c.fullName == i.rule) = false := beq_eq_false_iff_ne.mpr h.symm
  unfold Correction.ruleFor
  rw [List.reverse_append, List.reverse_append, List.find?_append, List.find?_append,
    List.reverse_cons, List.find?_append, List.find?_cons_of_neg (by rw [hno]; decide),
    List.find?_nil, Option.or_none]

theorem answerer_insert {c : Rule σ} {before after : List (Rule σ)}
    (he : e.rules = before ++ after) {i : Issue} (h : i.rule ≠ c.fullName) :
    Correction.answerer (e.insert before c after).correctors i
      = Correction.answerer e.correctors i := by
  have hrule : Correction.ruleFor (e.insert before c after).correctors i
      = Correction.ruleFor e.correctors i := by
    change Correction.ruleFor ((before ++ c :: after) ++ [e.parseRule]) i
      = Correction.ruleFor (e.rules ++ [e.parseRule]) i
    -- the last rule of the name answers, and the new one has another name
    rw [he, List.append_assoc, List.append_assoc]
    exact ruleFor_insert h
  unfold Correction.answerer
  rw [hrule]

/-- **A pass with the rule finds the same**, and the rule is put on record if it is asked. -/
theorem detectAll_applicable_insert {c : Rule σ} {before after : List (Rule σ)}
    (he : e.rules = before ++ after) (hc : c.Fails) (h : ∀ r ∈ e.rules, r.Functional) (v : View)
    (w w' : World σ) :
    (detectAll v ((e.insert before c after).applicable v.path) w').1.flatMap (·.found)
        = (detectAll v (e.applicable v.path) w).1.flatMap (·.found) ∧
      Adds c (e.turnsAt c v.path) v.path
        ((detectAll v (e.applicable v.path) w).1.filterMap (·.diagnostic))
        ((detectAll v ((e.insert before c after).applicable v.path) w').1.filterMap
          (·.diagnostic)) := by
  let asks : Rule σ → Bool := fun r => r.enabled && !r.excludes e.cwd v.path
  have hall : ∀ r ∈ before.filter asks ++ after.filter asks, r.Functional := by
    intro r hr
    rw [← List.filter_append, ← he] at hr
    exact h r (List.mem_filter.mp hr).1
  have hwithout : e.applicable v.path = before.filter asks ++ after.filter asks := by
    rw [← List.filter_append, ← he]
    rfl
  have hwith : (e.insert before c after).applicable v.path
      = before.filter asks ++ (c :: after).filter asks := List.filter_append ..
  rw [hwithout, hwith, turnsAt]
  cases hasks : asks c with
  | true =>
    have hif : (c.enabled && !c.excludes e.cwd v.path) = true := hasks
    rw [List.filter_cons_of_pos hasks, if_pos hif]
    exact detectAll_insert hc hall v w w'
  | false =>
    -- the rule is not asked at all
    have hif : ¬(c.enabled && !c.excludes e.cwd v.path) = true := by
      change ¬asks c = true
      rw [hasks]
      decide
    rw [List.filter_cons_of_neg (by rw [hasks]; decide), if_neg hif,
      detectAll_congr (fun r hr => (hall r hr).detect v) w' w]
    exact ⟨rfl, Adds.none c _ _⟩

/-- The rules that answer with the rule are those that answer without it, and the rule. -/
theorem mem_correctors_insert {c : Rule σ} {before after : List (Rule σ)}
    (he : e.rules = before ++ after) {r : Rule σ} (hr : r ∈ (e.insert before c after).correctors) :
    r ∈ e.correctors ∨ r = c := by
  rcases mem_correctors.mp hr with hr | hr
  · rcases List.mem_append.mp hr with hr | hr
    · exact .inl (mem_correctors.mpr (.inl (he ▸ List.mem_append_left _ hr)))
    · rcases List.mem_cons.mp hr with hr | hr
      · exact .inr hr
      · exact .inl (mem_correctors.mpr (.inl (he ▸ List.mem_append_right _ hr)))
  · exact .inl (mem_correctors.mpr (.inr hr))

/-- **The engine with the rule follows the one without.** -/
theorem follows_insert {c : Rule σ} {before after : List (Rule σ)} (he : e.rules = before ++ after)
    (hc : c.Fails) (hspares : c.Spares part) (hkeeps : e.parser.KeepsTo part)
    (hfunctional : ∀ r ∈ e.correctors, r.Functional) (h : ∀ r ∈ e.correctors, r.Spares part) :
    e.Follows (e.insert before c after) part fun path => Adds c (e.turnsAt c path) path := by
  -- The failing rule adds a diagnostic and no issue, whatever memory it meets.
  have hdetect := detectAll_applicable_insert he hc
    fun r hr => hfunctional r (mem_correctors.mpr (.inl hr))
  refine ⟨rfl, rfl, rfl, hkeeps, hfunctional, h, fun r hr => ?_,
    fun v w w' => (hdetect v w w').1, fun v w w' => (hdetect v w w').2⟩
  rcases mem_correctors_insert he hr with hr | rfl
  · exact h r hr
  · exact hspares

/-- **One engine is another with a rule added** that always fails. -/
structure Adding (e e' : Engine σ) (c : Rule σ) (part : σ → τ) : Prop where
  follows : e.Follows e' part fun path => Adds c (e.turnsAt c path) path
  answerer : ∀ path i, e.FoundFor path i →
    Correction.answerer e'.correctors i = Correction.answerer e.correctors i

/-- The turns in which the rule is put on record: those that complete a pass over a text that
parses. -/
def tries (e : Engine σ) (ac : Bool) (m : Machine) (w : World σ) : Nat :=
  (e.turns ac m w).countP e.acceptsFrom

variable {e' : Engine σ} {c : Rule σ}

/-! ### Loops with and without the rule -/

/-- **A turn is the same with the rule**, but for what it has put on record. -/
theorem Adding.step (h : e.Adding e' c part) (ac : Bool) {path : Option String} {m : Machine}
    {w w' : World σ}
    (hpath : m.source.path = path) (hasked : Asked e path m) (hd : m.stage ≠ .done)
    (hc : w.cancelled = false) (hc' : w'.cancelled = false) (hpart : part w'.memory = part w.memory)
    (old' : List Diagnostic) :
    ∃ new new', Echoes part m.diagnostics old' new new' (e.step ac m w)
        (e'.step ac (withRecord m old') w') ∧
      Adds c (e.turnsAt c path * [(m, w)].countP e.acceptsFrom) path new new' := by
  obtain ⟨new, new', hecho, hnew⟩ := h.follows.step ac hd hc hc' hpart
    (fun i hi => h.answerer path i (hasked i (List.mem_append_right _ hi))) old'
  refine ⟨new, new', hecho, ?_⟩
  rw [hpath] at hnew
  rw [List.countP_singleton]
  split at hnew
  · -- a pass over a text that parses, in which the new rule is asked once
    next ha =>
    rw [if_pos ha, Nat.mul_one]
    exact hnew
  · next ha =>
    rw [if_neg ha, Nat.mul_zero, hnew]
    exact Adds.none c path new

/-- **A loop is the same with the rule**, but for what it has put on record. -/
theorem Adding.finish (h : e.Adding e' c part) {path : Option String} {m : Machine}
    {w w' : World σ} (hpath : m.source.path = path) (hasked : Asked e path m)
    (hpart : part w'.memory = part w.memory) (old' : List Diagnostic)
    (hdown : (e.finish ac m w).world.cancelled = false)
    (hdown' : (e'.finish ac (withRecord m old') w').world.cancelled = false) :
    ∃ new new', Echoes part m.diagnostics old' new new' (e.finish ac m w)
        (e'.finish ac (withRecord m old') w') ∧
      Adds c (e.turnsAt c path * e.tries ac m w) path new new' := by
  unfold tries
  fun_induction e.turns ac m w generalizing old' w' with
  | case1 m w hd =>
    rw [finish_of_done hd, finish_of_done (m := withRecord m old') hd]
    exact ⟨[], [], .silent rfl rfl rfl hpart, Adds.none c _ _⟩
  | case2 m w hd f hf =>
    -- the turn gives up the source in both loops
    obtain ⟨new, new', hecho, hadds⟩ := h.step ac hpath hasked hd
      ((finish_drifts e ac m w).down hdown) ((finish_drifts e' ac _ w').down hdown') hpart old'
    rw [finish_of_fault hd hf,
      finish_of_fault (m := withRecord m old') hd (hecho.fault.trans hf)]
    exact ⟨new, new', hecho, hadds⟩
  | case3 m w hd hf ih =>
    obtain ⟨new, new', hecho, hadds⟩ := h.step ac hpath hasked hd
      ((finish_drifts e ac m w).down hdown) ((finish_drifts e' ac _ w').down hdown') hpart old'
    -- the loops go on from machines that differ in their record again, now by `new` and `new'`
    have hf' := hecho.fault.trans hf
    rw [finish_of_step hd hf] at hdown ⊢
    rw [finish_of_step (m := withRecord m old') hd hf', hecho.machine] at hdown' ⊢
    obtain ⟨more, more', hrest, hmore⟩ := ih ((step_origin m w).path.trans hpath)
      (hasked.step hpath (moves_step hd hf)) hecho.memory (old' ++ new') hdown hdown'
    refine ⟨new ++ more, new' ++ more', hecho.trans hrest, ?_⟩
    rw [← List.singleton_append, List.countP_append, Nat.mul_add]
    exact hadds.append hmore

/-- The parser finds the same when a source is taken up in a run with the rule and in one
without. -/
theorem Adding.takenUp_part (h : e.Adding e' c part) {ss : List Source} {w w' : World σ}
    (hpart : part w'.memory = part w.memory)
    (hdown : (e.processAll ac ss w).2.cancelled = false)
    (hdown' : (e'.processAll ac ss w').2.cancelled = false) (k : Nat) :
    part (e'.takenUp ac ss w' k).memory = part (e.takenUp ac ss w k).memory := by
  -- On the sources: both runs go through the first one, and take up the rest from worlds that
  -- agree.
  induction ss generalizing w w' k with
  | nil => exact hpart
  | cons s ss ih =>
    cases k with
    | zero => exact hpart
    | succ k =>
      have hfirst : (e.process ac s w).2.cancelled = false :=
        (processAll_drifts e ac ss _).down hdown
      have hfirst' : (e'.process ac s w').2.cancelled = false :=
        (processAll_drifts e' ac ss _).down hdown'
      have hmemory : part (e'.process ac s w').2.memory = part (e.process ac s w).2.memory := by
        rw [process_world] at hfirst hfirst'
        rw [process_world, process_world]
        obtain ⟨new, new', hecho, -⟩ := h.finish (m := start ac s) rfl (Asked.initial s.path s)
          hpart [] hfirst hfirst'
        exact hecho.memory
      exact ih hmemory hdown hdown' k

/-! ### Rules in which the rule is inserted -/

theorem takeParseRule_insert (hc : c.fullName ≠ Rules.parseRuleName) (before after : List (Rule σ)) :
    ∃ p left right, takeParseRule (before ++ after) = (p, left ++ right) ∧
      takeParseRule (before ++ c :: after) = (p, left ++ c :: right) := by
  have hno : ¬(c.fullName == Rules.parseRuleName) = true := by
    rw [beq_iff_eq]
    exact hc
  have hskip : (c :: after).find? (·.fullName == Rules.parseRuleName)
      = after.find? (·.fullName == Rules.parseRuleName) := List.find?_cons_of_neg hno
  have hkeep : (c :: after).eraseP (·.fullName == Rules.parseRuleName)
      = c :: after.eraseP (·.fullName == Rules.parseRuleName) := List.eraseP_cons_of_neg hno
  unfold takeParseRule
  rw [List.find?_append, List.find?_append, hskip]
  split
  · next r _ =>
    -- the parse rule is the first of its name, on the one side of the place or on the other
    by_cases hbefore : ∃ q ∈ before, (q.fullName == Rules.parseRuleName) = true
    · obtain ⟨q, hq, hqname⟩ := hbefore
      have htake : ∀ rest, (before ++ rest).eraseP (·.fullName == Rules.parseRuleName)
          = before.eraseP (·.fullName == Rules.parseRuleName) ++ rest :=
        fun rest =>
          List.eraseP_append_left (p := fun r => r.fullName == Rules.parseRuleName) hqname rest hq
      refine ⟨r, before.eraseP (·.fullName == Rules.parseRuleName), after, ?_, ?_⟩
      · rw [htake]
      · rw [htake]
    · have htake : ∀ rest, (before ++ rest).eraseP (·.fullName == Rules.parseRuleName)
          = before ++ rest.eraseP (·.fullName == Rules.parseRuleName) :=
        fun rest => List.eraseP_append_right rest fun q hq hqname => hbefore ⟨q, hq, hqname⟩
      refine ⟨r, before, after.eraseP (·.fullName == Rules.parseRuleName), ?_, ?_⟩
      · rw [htake]
      · rw [htake, hkeep]
  · -- no rule of the name: the one of the library is added in both engines
    exact ⟨_, before, after, rfl, rfl⟩

/-- The rules that answer in an engine are those it was made from, and the library's parse rule if
there was none. -/
theorem mem_of_mem_correctors_ofRules {rules : List (Rule σ)} {parser : Parser σ} {cwd : String}
    {budget : Int} (he : ofRules rules parser cwd budget = .ok e) {r : Rule σ}
    (hr : r ∈ e.correctors) : r ∈ rules ∨ r = .ofKind Rules.unparsable := by
  unfold ofRules at he
  split at he
  · cases he
  · cases he
    rcases mem_correctors.mp hr with hr | rfl
    · exact .inl (mem_of_mem_takeParseRule hr)
    · -- the parse rule: one of the list, or the one that is added
      change (takeParseRule rules).1 ∈ rules ∨ (takeParseRule rules).1 = _
      unfold takeParseRule
      split
      · next hfind => exact .inl (List.mem_of_find?_eq_some hfind)
      · exact .inr rfl

theorem exists_ofRules_insert (hc : c.fullName ≠ Rules.parseRuleName) {before after : List (Rule σ)}
    (hne : before ++ after ≠ []) (parser : Parser σ) (cwd : String) (budget : Int) :
    ∃ (e : Engine σ) (left right : List (Rule σ)),
      ofRules (before ++ after) parser cwd budget = .ok e ∧
      ofRules (before ++ c :: after) parser cwd budget = .ok (e.insert left c right) ∧
      e.rules = left ++ right ∧ e.parser = parser ∧ e.cwd = cwd := by
  -- Taking out the rule for parse failures leaves the inserted rule where it stands among the
  -- others.
  obtain ⟨p, left, right, hwithout, hwith⟩ := takeParseRule_insert hc before after
  refine ⟨⟨left ++ right, p, parser, budget, cwd⟩, left, right, ?_, ?_, rfl, rfl, rfl⟩
  · rw [ofRules, List.isEmpty_eq_false_iff.mpr hne, hwithout]
    rfl
  · rw [ofRules, List.isEmpty_eq_false_iff.mpr (List.append_ne_nil_of_right_ne_nil _
      (List.cons_ne_nil _ _)), hwith]
    rfl

/-- The parse rule of the library disturbs nobody. -/
theorem unparsable_spares (part : σ → τ) : (Rule.ofKind Rules.unparsable).Spares part where
  detect _ _ := rfl
  correct _ _ _ := rfl

theorem unparsable_signs : (Rule.ofKind Rules.unparsable : Rule σ).Signs :=
  fun _ _ h => (Rules.finds_cases List.mem_cons_self h).1

/-- **The engine made from rules with one that always fails** is the one made without it, with the
rule added. -/
theorem exists_adding {before after : List (Rule σ)} (hne : before ++ after ≠ [])
    (hrules : ∀ r ∈ before ++ after, r.Functional ∧ r.Spares part ∧ r.Avoids c.fullName)
    (hc : c.Fails) (hspares : c.Spares part) (hname : c.fullName ≠ Rules.parseRuleName)
    {parser : Parser σ} (hparser : parser.KeepsTo part) (cwd : String) (budget : Int) :
    ∃ e e', ofRules (before ++ after) parser cwd budget = .ok e ∧
      ofRules (before ++ c :: after) parser cwd budget = .ok e' ∧ e.cwd = cwd ∧
      e.Adding e' c part := by
  obtain ⟨e, left, right, he, he', hsplit, rfl, rfl⟩ :=
    exists_ofRules_insert hname hne parser cwd budget
  -- with the library's parse rule, all rules are as those of the list
  have hall : ∀ r ∈ e.correctors, r.Functional ∧ r.Spares part ∧ r.Avoids c.fullName := by
    intro r hr
    rcases mem_of_mem_correctors_ofRules he hr with hr | rfl
    · exact hrules r hr
    · exact ⟨unparsable_functional, unparsable_spares part, unparsable_signs.avoids hname.symm⟩
  -- issues bear the names of the rules that found them, so the rule is never asked to correct one
  refine ⟨e, e.insert left c right, he, he', rfl, ?_, fun path i hi => answerer_insert hsplit ?_⟩
  · exact follows_insert hsplit hc hspares hparser (fun r hr => (hall r hr).1)
      (fun r hr => (hall r hr).2.1)
  · obtain ⟨r, hr, v, j, hfinds, hij⟩ := hi
    rw [hij]
    exact (hall r (mem_correctors_of_mem_asked hr)).2.2 v j hfinds

/-- **A rule that always fails is put on record and does not disturb the others**, wherever it is
inserted. Let the other rules answer for what they are shown, and none of them hand over issues
under the name of the rule (otherwise see `handed_name_of_failing`); rules with other names that
sign their findings do not (`Rule.Signs.avoids`). If neither the run with the rule nor the one
without it is cancelled, both report the same on a source that the run without it does not give up,
but for the diagnostics. To these the rule adds one for each pass over a text that parses, if it is
enabled and does not exclude the path. -/
theorem run_insert {before after : List (Rule σ)} (hne : before ++ after ≠ [])
    (hrules : ∀ r ∈ before ++ after, r.Functional ∧ r.Spares part ∧ r.Avoids c.fullName)
    (hc : c.Fails) (hspares : c.Spares part) (hname : c.fullName ≠ Rules.parseRuleName)
    {parser : Parser σ} (hparser : parser.KeepsTo part) (cwd : String) (budget : Int) :
    ∃ e e', ofRules (before ++ after) parser cwd budget = .ok e ∧
      ofRules (before ++ c :: after) parser cwd budget = .ok e' ∧
      ∀ ac ss w, (e.run ac ss w).1.cancelled = false → (e'.run ac ss w).1.cancelled = false →
        ∀ k s r, ss[k]? = some s → (e.run ac ss w).1.sources[k]? = some r →
          (e.finish ac (start ac s) (e.takenUp ac ss w.resume k)).fault = none →
          ∃ r', ∃ faults : List Fault, (e'.run ac ss w).1.sources[k]? = some r' ∧
            r' = { r with diagnostics := r'.diagnostics } ∧
            r'.diagnostics.Perm
              (r.diagnostics ++ faults.map (Diagnostic.ofFault c.fullName s.path .detect)) ∧
            faults.length = if c.enabled && !c.excludes cwd s.path
              then e.tries ac (start ac s) (e.takenUp ac ss w.resume k) else 0 := by
  obtain ⟨e, e', he, he', rfl, hadding⟩ :=
    exists_adding hne hrules hc hspares hname hparser cwd budget
  refine ⟨e, e', he, he', fun ac ss w hdown hdown' k s r hs hr hfault => ?_⟩
  rw [getElem?_run_sources, hs, Option.map_some, process_fst, reportAfter_of_ok hfault] at hr
  cases hr
  -- The loops over this source start from worlds that agree, and neither is cancelled before its
  -- end.
  have hpath : (start ac s).source.path = s.path := rfl
  obtain ⟨new, new', hecho, faults, hlength, hperm⟩ :=
    hadding.finish hpath (Asked.initial s.path s) (hadding.takenUp_part rfl hdown hdown' k) []
      ((drifts_processAll hs e ac w.resume).down hdown)
      ((drifts_processAll hs e' ac w.resume).down hdown')
  have hfault' := hecho.fault.trans hfault
  have hmachine := hecho.machine
  rw [withRecord_start] at hfault' hmachine
  have hwith : (e'.run ac ss w).1.sources[k]? = some (reportOf (withRecord
      (e.finish ac (start ac s) (e.takenUp ac ss w.resume k)).machine new')) := by
    rw [getElem?_run_sources, hs, Option.map_some, process_fst, reportAfter_of_ok hfault', hmachine,
      List.nil_append]
  refine ⟨_, faults, hwith, rfl, ?_, ?_⟩
  · change new'.Perm
      ((e.finish ac (start ac s) (e.takenUp ac ss w.resume k)).machine.diagnostics ++ _)
    rw [hecho.diagnostics]
    exact hperm
  · rw [hlength, turnsAt, ite_mul, Nat.one_mul, Nat.zero_mul]

/-! ### A specimen -/

def failing : Rule Tally :=
  .ofKind (Scripted.bareKind { name := "Fails", group := "Test", label := "BareRule" })

theorem failing_fails : failing.Fails :=
  fun _ _ => ⟨.notImplemented, rfl⟩

theorem wordRule_undisturbed (id : Nat) (name word : String) (replacement : Option String)
    (hne : (wordRule id name word replacement).fullName ≠ failing.fullName) :
    (wordRule id name word replacement).Functional ∧
      (wordRule id name word replacement).Spares (fun _ => ()) ∧
      (wordRule id name word replacement).Avoids failing.fullName :=
  ⟨wordKind_functional _ _ _, ⟨fun _ _ => rfl, fun _ _ _ => rfl⟩,
    (wordRule_signs id name word replacement).avoids hne⟩

/-- Between a rule that replaces the letter a and one that reports the letter b, the rule that fails
is put on record in both passes, and the text is still corrected. -/
theorem specimen_insert :
    ∃ e' r', ofRules [wordRule 0 "ReplaceA" "a" (some "b"), failing, wordRule 1 "ReportB" "b" none]
        Scripted.flatParser "/work" = .ok e' ∧
      (e'.run true [Source.ofText "a"] ⟨{}, false, []⟩).1.sources[0]? = some r' ∧
      r'.source.text = "b" ∧ r'.passes = 2 ∧ r'.diagnostics.length = 2 := by
  have hrules : ∀ r ∈ [wordRule 0 "ReplaceA" "a" (some "b")] ++ [wordRule 1 "ReportB" "b" none],
      r.Functional ∧ r.Spares (fun _ => ()) ∧ r.Avoids failing.fullName := by
    intro r hr
    simp only [List.cons_append, List.nil_append, List.mem_cons, List.not_mem_nil, or_false] at hr
    rcases hr with rfl | rfl
    · exact wordRule_undisturbed _ _ _ _ (by decide)
    · exact wordRule_undisturbed _ _ _ _ (by decide)
  have hparser : (Scripted.flatParser : Parser Tally).KeepsTo fun _ => () :=
    ⟨fun _ _ _ _ => rfl, fun _ _ _ _ => rfl⟩
  obtain ⟨e, e', he, he', hruns⟩ := run_insert (List.cons_ne_nil _ _) hrules failing_fails
    ⟨fun _ _ => rfl, fun _ _ _ => rfl⟩ (by decide) hparser "/work" defaultMaxIterations
  -- The engines that the theorem speaks of are these two.
  obtain rfl : specimen = e := Except.ok.inj he
  obtain rfl : specimen.insert [wordRule 0 "ReplaceA" "a" (some "b")] failing
      [wordRule 1 "ReportB" "b" none] = e' := Except.ok.inj he'
  have htext : (specimen.process true (Source.ofText "a") ⟨{}, false, []⟩).1.source.text = "b" := by
    decide +kernel
  have hpasses : (specimen.process true (Source.ofText "a") ⟨{}, false, []⟩).1.passes = 2 := by
    decide +kernel
  have hrecord : (specimen.process true (Source.ofText "a") ⟨{}, false, []⟩).1.diagnostics.length
      = 0 := by decide +kernel
  obtain ⟨r', faults, hr', hsame, hperm, hlength⟩ := hruns true [Source.ofText "a"]
    ⟨{}, false, []⟩ (by decide +kernel) (by decide +kernel) 0 (Source.ofText "a")
    (specimen.process true (Source.ofText "a") ⟨{}, false, []⟩).1 rfl rfl (by decide +kernel)
  refine ⟨_, r', he', hr', ?_, ?_, ?_⟩
  · rw [hsame]
    exact htext
  · rw [hsame]
    exact hpasses
  · rw [hperm.length_eq, List.length_append, List.length_map, hrecord, hlength]
    decide +kernel

/-- A rule that fails on every text, but would answer for corrections. -/
def waiting : Rule Tally :=
  .ofKind
    { (Scripted.bareKind { name := "Waits", group := "Test", label := "WaitingRule" } :
        RuleKind Tally) with
      correct := fun _ _ i memory => .ofExcept (Rule.proposeEdit i.start i.stop "b") memory }

/-- **A rule may put the name of another one on what it finds.** If that one fails on every text and
is there nevertheless, it is asked for the correction, and the text changes. -/
theorem handed_name_of_failing :
    waiting.Fails ∧ waiting.fullName ≠ Rules.parseRuleName ∧
      (handingRule fun i => [{ i with rule := waiting.fullName }]).Functional ∧
      (handingRule fun i => [{ i with rule := waiting.fullName }]).fullName
        ≠ waiting.fullName ∧
      ∃ e e', ofRules [handingRule fun i => [{ i with rule := waiting.fullName }]]
          Scripted.flatParser "/work" = .ok e ∧
        ofRules [handingRule fun i => [{ i with rule := waiting.fullName }], waiting]
          Scripted.flatParser "/work" = .ok e' ∧
        (e.process true (Source.ofText "a") ⟨{}, false, []⟩).1.source.text = "a" ∧
        (e'.process true (Source.ofText "a") ⟨{}, false, []⟩).1.source.text = "b" :=
  ⟨fun _ _ => ⟨.notImplemented, rfl⟩, by decide, handingRule_functional _, by decide,
    _, _, rfl, rfl, by decide +kernel, by decide +kernel⟩

end Engine

end Lintel
