import Lintel.Proofs.Engine.History

/-!
# Runs that are disturbed

While a run goes on, the rest of the program does not stand still. The run may be cancelled at any
moment, by a rule or the parser that is being called or from elsewhere, and the memory of rules and
parser may change. The loop looks at the cancellation flag before each turn and at no other moment,
so for the loop it is the same whether the flag is raised in the middle of a turn or at its end.

`Engine.Loops` is the loop with such disturbances: before each turn the world may be replaced by any
other in which the flag is not lowered. `Engine.Reports` takes sources through it, one after the
other. A run as `Engine.run` makes it is one of these, the one that is not disturbed
(`reports_run`); statements about all of them hold for every set of moments at which a run is
cancelled. What `finish_cases` is for runs that are not disturbed, `Loops.cases` is for these.
-/

namespace Lintel

variable {σ : Type}

/-- What may become of the world between two turns: anything, but the flag is not lowered. -/
def World.Drifts (w w' : World σ) : Prop :=
  w.cancelled = true → w'.cancelled = true

theorem World.Drifts.refl (w : World σ) : w.Drifts w :=
  fun h => h

namespace Engine

/-- **The loop of a source with disturbances.** It begins in a state, takes turns from a list of
states and comes out as a turn does. -/
inductive Loops (e : Engine σ) (ac : Bool) :
    Machine → World σ → List (Machine × World σ) → Turn σ → Prop where
  | ended {m : Machine} {w : World σ} (hd : m.stage = .done) : Loops e ac m w [] ⟨m, none, w⟩
  /-- A turn gives up the source. -/
  | failed {m : Machine} {w w' : World σ} {f : Fault} (hd : m.stage ≠ .done) (hw : w.Drifts w')
      (hf : (e.step ac m w').fault = some f) : Loops e ac m w [(m, w')] (e.step ac m w')
  | turned {m : Machine} {w w' : World σ} {states : List (Machine × World σ)} {t : Turn σ}
      (hd : m.stage ≠ .done) (hw : w.Drifts w') (hf : (e.step ac m w').fault = none)
      (h : Loops e ac (e.step ac m w').machine (e.step ac m w').world states t) :
      Loops e ac m w ((m, w') :: states) t

/-- The report on a source whose loop came out in some way. -/
def reportAfter (e : Engine σ) (t : Turn σ) : SourceReport :=
  match t.fault with
  | some f => e.givenUp t.machine.source f
  | none => reportOf t.machine

/-- **The reports of a run over sources with disturbances**, which begins in a world. -/
inductive Reports (e : Engine σ) (ac : Bool) :
    List Source → World σ → List SourceReport → Prop where
  | nil {w : World σ} : Reports e ac [] w []
  | cons {s : Source} {ss : List Source} {w : World σ} {states : List (Machine × World σ)}
      {t : Turn σ} {rs : List SourceReport} (h : Loops e ac (start ac s) w states t)
      (hrest : Reports e ac ss t.world rs) : Reports e ac (s :: ss) w (e.reportAfter t :: rs)

variable {e : Engine σ} {ac : Bool}

theorem reportAfter_of_ok {t : Turn σ} (hf : t.fault = none) :
    e.reportAfter t = reportOf t.machine := by
  rw [reportAfter, hf]

/-! ### Runs that are not disturbed -/

theorem loops_finish (e : Engine σ) (ac : Bool) (m : Machine) (w : World σ) :
    e.Loops ac m w (e.turns ac m w) (e.finish ac m w) := by
  fun_induction e.turns ac m w with
  | case1 m w hd =>
    rw [finish_of_done hd]
    exact .ended hd
  | case2 m w hd f hf =>
    rw [finish_of_fault hd hf]
    exact .failed hd (World.Drifts.refl w) hf
  -- a run without disturbance is the loop whose worlds drift nowhere
  | case3 m w hd hf ih =>
    rw [finish_of_step hd hf]
    exact .turned hd (World.Drifts.refl w) hf ih

theorem process_fst (e : Engine σ) (ac : Bool) (s : Source) (w : World σ) :
    (e.process ac s w).1 = e.reportAfter (e.finish ac (start ac s) w) := by
  rw [process_eq, reportAfter]
  cases (e.finish ac (start ac s) w).fault with
  | some f => rfl
  | none => rfl

theorem reports_processAll (e : Engine σ) (ac : Bool) (ss : List Source) (w : World σ) :
    e.Reports ac ss w (e.processAll ac ss w).1 := by
  induction ss generalizing w with
  | nil => exact .nil
  | cons s ss ih =>
    change e.Reports ac (s :: ss) w
      ((e.process ac s w).1 :: (e.processAll ac ss (e.process ac s w).2).1)
    rw [process_fst, process_world]
    exact .cons (loops_finish e ac (start ac s) w) (ih _)

/-- **A run makes the reports of one that is not disturbed.** -/
theorem reports_run (e : Engine σ) (ac : Bool) (ss : List Source) (w : World σ) :
    e.Reports ac ss w.resume (e.run ac ss w).1.sources :=
  reports_processAll e ac ss w.resume

/-! ### Induction -/

/-- **Induction over a loop with disturbances.** What holds at the start and is kept by every turn
that raises no fault, in whatever world it is taken, holds at the end. -/
theorem Loops.cases {Inv : List (Machine × World σ) → Machine → Prop}
    (hstep : ∀ past m w, Inv past m → m.stage ≠ .done → (e.step ac m w).fault = none →
      Inv (past ++ [(m, w)]) (e.step ac m w).machine)
    {m : Machine} {w : World σ} {states : List (Machine × World σ)} {t : Turn σ}
    (h : e.Loops ac m w states t) (hi : Inv [] m) :
    (Inv states t.machine ∧ t.machine.stage = .done ∧ t.fault = none) ∨
    (∃ past m' w' f, Inv past m' ∧ m'.stage ≠ .done ∧ (e.step ac m' w').fault = some f ∧
      t = e.step ac m' w' ∧ states = past ++ [(m', w')]) := by
  -- the states behind are a parameter of the induction
  have main : ∀ past, Inv past m →
      (Inv (past ++ states) t.machine ∧ t.machine.stage = .done ∧ t.fault = none) ∨
      (∃ before m' w' f, Inv before m' ∧ m'.stage ≠ .done ∧ (e.step ac m' w').fault = some f ∧
        t = e.step ac m' w' ∧ past ++ states = before ++ [(m', w')]) := by
    clear hi
    induction h with
    | ended hd =>
      intro past hi
      rw [List.append_nil]
      exact .inl ⟨hi, hd, rfl⟩
    | failed hd hw hf =>
      intro past hi
      exact .inr ⟨past, _, _, _, hi, hd, hf, rfl, rfl⟩
    | turned hd hw hf h ih =>
      intro past hi
      have hrest := ih _ (hstep past _ _ hi hd hf)
      rwa [List.append_assoc, List.singleton_append] at hrest
  exact main [] hi

theorem Loops.invariant {Inv : List (Machine × World σ) → Machine → Prop}
    (hstep : ∀ past m w, Inv past m → m.stage ≠ .done → (e.step ac m w).fault = none →
      Inv (past ++ [(m, w)]) (e.step ac m w).machine)
    {m : Machine} {w : World σ} {states : List (Machine × World σ)} {t : Turn σ}
    (h : e.Loops ac m w states t) (hi : Inv [] m) (hf : t.fault = none) : Inv states t.machine := by
  rcases h.cases hstep hi with ⟨hend, -, -⟩ | ⟨past, m', w', f, -, -, hfault, rfl, -⟩
  · exact hend
  · -- the last turn would have raised one
    rw [hf] at hfault
    cases hfault

theorem Loops.stage_eq_done {m : Machine} {w : World σ} {states : List (Machine × World σ)}
    {t : Turn σ} (h : e.Loops ac m w states t) (hf : t.fault = none) : t.machine.stage = .done := by
  induction h with
  | ended hd => exact hd
  | failed hd hw hfault =>
    rw [hf] at hfault
    cases hfault
  | turned hd hw hfault h ih => exact ih hf

theorem Reports.exists_loops {ss : List Source} {w : World σ} {rs : List SourceReport}
    (h : e.Reports ac ss w rs) {k : Nat} {s : Source} (hk : ss[k]? = some s) :
    ∃ w' states t, e.Loops ac (start ac s) w' states t ∧ rs[k]? = some (e.reportAfter t) := by
  induction h generalizing k with
  | nil => cases hk
  | @cons s' ss w states t rs hloops hrest ih =>
    cases k with
    | zero =>
      cases hk
      exact ⟨w, states, t, hloops, rfl⟩
    -- a later source, taken up in the world that the first one left
    | succ k => exact ih hk

theorem Reports.exists_of_mem {ss : List Source} {w : World σ} {rs : List SourceReport}
    (h : e.Reports ac ss w rs) {r : SourceReport} (hr : r ∈ rs) :
    ∃ s ∈ ss, ∃ w' states t, e.Loops ac (start ac s) w' states t ∧ r = e.reportAfter t := by
  induction h with
  | nil => cases hr
  | @cons s ss w states t rs hloops hrest ih =>
    rcases List.mem_cons.mp hr with rfl | hr
    · exact ⟨s, List.mem_cons_self, w, states, t, hloops, rfl⟩
    · obtain ⟨s', hs', hexists⟩ := ih hr
      exact ⟨s', List.mem_cons_of_mem _ hs', hexists⟩

/-- **How a loop with disturbances ends**, if it raises no fault: what the machine keeps agrees with
what happened. -/
theorem Loops.history {s : Source} (hs : s.Coherent) {w : World σ}
    {states : List (Machine × World σ)} {t : Turn σ} (h : e.Loops ac (start ac s) w states t)
    (hf : t.fault = none) : Tracked e s states t.machine ∧ Standing e states t.machine := by
  let Inv (past : List (Machine × World σ)) (m : Machine) : Prop :=
    Tracked e s past m ∧ Standing e past m
  have hinit : Inv [] (start ac s) := ⟨Tracked.initial hs, Standing.initial s⟩
  -- one turn keeps both invariants, whatever disturbed the world before it
  have hstep : ∀ past m w, Inv past m → m.stage ≠ .done → (e.step ac m w).fault = none →
      Inv (past ++ [(m, w)]) (e.step ac m w).machine :=
    fun _ _ w => tracked_standing_step ac w
  exact h.invariant hstep hinit hf

end Engine

end Lintel
