import Mathlib.Logic.Relation
import Lintel.Proofs.Engine.Comparison
import Lintel.Proofs.Engine.Counting

/-!
# Sources that take turns

A run over several sources may work on many of them at once. Here such a run is a **fleet**: each
source has a **lane** with the state of its loop, and all lanes share one world, in which the memory
of rules and parser and the cancellation flag are. A step of the fleet is a turn of any one source
whose loop has not ended (`Engine.Advances`). Between two steps the world may drift, so the memory
may be changed by whatever else goes on.

If rules and parser answer for the text alone, and the run is not cancelled, then it does not matter
in which order the sources take their turns, nor how many of them are under way at a time. Each
interleaving ends, because every step brings what is left to do down, and the reports are those of
the run that takes up one source after the other, in the order of the sources
(`interleaved_reports`).

The invariant is `Lane.Heads`: the lane of a source is on the way to where the loop of the source
comes out in the sequential run. A turn of another source does not touch the lane, and a turn of its
own leads to where it would have led in the sequential run, since nothing but the world is different
there (`Functional.step_eq`).
-/

namespace Lintel

variable {σ : Type}

/-- A source on its way: the state of its loop, and the fault that it was given up with, if it
was. -/
structure Lane where
  machine : Machine
  fault : Option Fault := none

namespace Lane

def Ended (l : Lane) : Prop :=
  l.machine.stage = .done ∨ l.fault.isSome = true

instance (l : Lane) : Decidable l.Ended :=
  inferInstanceAs (Decidable (_ ∨ _))

/-- The report on the source, once its loop has ended. -/
def report (e : Engine σ) (l : Lane) : SourceReport :=
  match l.fault with
  | some f => e.givenUp l.machine.source f
  | none => Engine.reportOf l.machine

/-- A bound for the turns that are left. -/
def left (budget : Int) (l : Lane) : Nat :=
  if l.fault.isSome then 0 else l.machine.rank budget

theorem report_eq (e : Engine σ) {l : Lane} {t : Engine.Turn σ} (hm : l.machine = t.machine)
    (hf : l.fault = t.fault) : l.report e = e.reportAfter t := by
  cases hfault : t.fault with
  | none => rw [report, Engine.reportAfter, hf, hfault, hm]
  | some f => rw [report, Engine.reportAfter, hf, hfault, hm]

end Lane

/-- Sources on their way, in their order, and the world that they share. -/
structure Fleet (σ : Type) where
  lanes : List Lane
  world : World σ

def Fleet.left (budget : Int) (c : Fleet σ) : Nat :=
  (c.lanes.map (Lane.left budget)).sum

namespace Engine

/-- Where a run over sources begins. The cancellation flag is lowered first. -/
def embark (ac : Bool) (ss : List Source) (w : World σ) : Fleet σ :=
  ⟨ss.map fun s => ⟨start ac s, none⟩, w.resume⟩

/-- **A step of a fleet**: one of the sources takes a turn. -/
inductive Advances (e : Engine σ) (ac : Bool) (c : Fleet σ) : Fleet σ → Prop where
  | turn {k : Nat} {l : Lane} {w : World σ} (hk : c.lanes[k]? = some l) (hl : ¬l.Ended)
      (hw : c.world.Drifts w) :
      Advances e ac c ⟨c.lanes.set k ⟨(e.step ac l.machine w).machine, (e.step ac l.machine w).fault⟩,
        (e.step ac l.machine w).world⟩

/-- Take turns in the order of a schedule. Sources whose loop has ended are passed over. -/
def sail (e : Engine σ) (ac : Bool) : List Nat → Fleet σ → Fleet σ
  | [], c => c
  | k :: ks, c =>
    match c.lanes[k]? with
    | none => e.sail ac ks c
    | some l =>
      if l.Ended then e.sail ac ks c
      else
        let t := e.step ac l.machine c.world
        e.sail ac ks ⟨c.lanes.set k ⟨t.machine, t.fault⟩, t.world⟩

variable {e : Engine σ} {ac : Bool}

theorem reaches_sail (e : Engine σ) (ac : Bool) (ks : List Nat) (c : Fleet σ) :
    Relation.ReflTransGen (e.Advances ac) c (e.sail ac ks c) := by
  -- by induction on the schedule; a lane that is not there or has ended is passed over
  induction ks generalizing c with
  | nil => exact .refl
  | cons k ks ih =>
    unfold sail
    split
    · exact ih c
    · next l hk =>
      split
      · exact ih c
      · next hl => exact .head (.turn hk hl (.refl _)) (ih _)

/-! ### Every interleaving ends -/

/-- A lane with less to do makes for less to do in all. -/
theorem sum_set_lt {lanes : List Lane} {k : Nat} {l l' : Lane} (hk : lanes[k]? = some l)
    {f : Lane → Nat} (hlt : f l' < f l) : ((lanes.set k l').map f).sum < (lanes.map f).sum := by
  induction lanes generalizing k with
  | nil => cases hk
  | cons first lanes ih =>
    cases k with
    | zero =>
      cases hk
      simp only [List.set_cons_zero, List.map_cons, List.sum_cons]
      omega
    -- the lane is further on, and the first one has as much left as before
    | succ k =>
      have hrest := ih hk
      simp only [List.set_cons_succ, List.map_cons, List.sum_cons]
      omega

theorem stage_ne_of_not_ended {l : Lane} (hl : ¬l.Ended) : l.machine.stage ≠ .done :=
  fun hd => hl (.inl hd)

theorem fault_eq_of_not_ended {l : Lane} (hl : ¬l.Ended) : l.fault = none := by
  cases hf : l.fault with
  | none => rfl
  | some f => exact absurd (.inr (by rw [hf]; rfl)) hl

/-- **A step brings what is left down.** -/
theorem Advances.left_lt {c c' : Fleet σ} (h : e.Advances ac c c') :
    c'.left e.maxIterations < c.left e.maxIterations := by
  cases h with
  | @turn k l w hk hl hw =>
    refine sum_set_lt hk ?_
    have hd := stage_ne_of_not_ended hl
    have hleft : l.left e.maxIterations = l.machine.rank e.maxIterations := by
      rw [Lane.left, fault_eq_of_not_ended hl]
      rfl
    rw [hleft]
    unfold Lane.left
    -- a lane that is given up has nothing left, and it had something
    cases hf : (e.step ac l.machine w).fault with
    | none => exact rank_step e ac l.machine w hd hf
    | some f => exact rank_pos hd e.maxIterations

theorem left_embark (ac : Bool) (ss : List Source) (w : World σ) (budget : Int) :
    (embark ac ss w).left budget = ss.length * (3 * budget.toNat + 1) := by
  induction ss with
  | nil => rw [List.length_nil, Nat.zero_mul]; rfl
  | cons s ss ih =>
    have hcons : (embark ac (s :: ss) w).left budget
        = (start ac s).rank budget + (embark ac ss w).left budget := rfl
    rw [hcons, ih, rank_start, List.length_cons, Nat.add_mul, Nat.one_mul, Nat.add_comm]

/-- No sequence of steps is endless. -/
theorem exists_rest (e : Engine σ) (ac : Bool) (cs : Nat → Fleet σ) :
    ∃ n ≤ (cs 0).left e.maxIterations, ¬e.Advances ac (cs n) (cs (n + 1)) := by
  refine Classical.byContradiction fun hnone => ?_
  have hgo : ∀ n ≤ (cs 0).left e.maxIterations, e.Advances ac (cs n) (cs (n + 1)) :=
    fun n hn => Classical.byContradiction fun hnot => hnone ⟨n, hn, hnot⟩
  -- each step has brought what is left down by one at least
  have hleft : ∀ n ≤ (cs 0).left e.maxIterations,
      (cs n).left e.maxIterations + n ≤ (cs 0).left e.maxIterations := by
    intro n
    induction n with
    | zero => exact fun _ => Nat.le_refl _
    | succ n ih =>
      intro hn
      have hlt := (hgo n (by omega)).left_lt
      have hle := ih (by omega)
      omega
  have hlast := hleft _ (Nat.le_refl _)
  have hlt := (hgo _ (Nat.le_refl _)).left_lt
  omega

/-- A fleet that cannot go on has arrived. -/
theorem ended_of_rest {c : Fleet σ} (h : ∀ c', ¬e.Advances ac c c') : ∀ l ∈ c.lanes, l.Ended := by
  intro l hl
  obtain ⟨k, hk⟩ := List.getElem?_of_mem hl
  exact Classical.byContradiction fun hnot => h _ (.turn hk hnot (.refl _))

/-- A fleet that has arrived cannot go on. -/
theorem not_advances_of_ended {c : Fleet σ} (h : ∀ l ∈ c.lanes, l.Ended) (c' : Fleet σ) :
    ¬e.Advances ac c c' := by
  rintro ⟨hk, hl, hw⟩
  exact hl (h _ (List.mem_of_getElem? hk))

/-! ### Every interleaving comes to the same -/

theorem Functional.detectAll_applicable (he : e.Functional) (v : View) (w w' : World σ) :
    (detectAll v (e.applicable v.path) w').1 = (detectAll v (e.applicable v.path) w).1 :=
  detectAll_congr
    (fun r hr => he.detect r (mem_correctors.mpr (.inl (List.mem_filter.mp hr).1)) v) w' w

/-- An engine whose rules and parser answer for the text alone does the same in all worlds. -/
theorem Functional.follows (he : e.Functional) :
    e.Follows e (fun _ => ()) (fun _ new new' => new' = new) where
  parser := rfl
  parseRule := rfl
  maxIterations := rfl
  keeps := ⟨fun text memory memory' _ => he.parser text memory memory', fun _ _ _ _ => rfl⟩
  functional r hr := ⟨he.detect r hr, he.correct r hr⟩
  spares _ _ := ⟨fun _ _ => rfl, fun _ _ _ => rfl⟩
  spares' _ _ := ⟨fun _ _ => rfl, fun _ _ _ => rfl⟩
  found v w w' := by rw [he.detectAll_applicable v w w']
  recorded v w w' := by rw [he.detectAll_applicable v w w']

/-- **A turn leads to the same in all worlds** in which it is not cut short. -/
theorem Functional.step_eq (he : e.Functional) (ac : Bool) {m : Machine} (hd : m.stage ≠ .done)
    {w w' : World σ}
    (hc : w.cancelled = false) (hc' : w'.cancelled = false) :
    (e.step ac m w').machine = (e.step ac m w).machine ∧
      (e.step ac m w').fault = (e.step ac m w).fault := by
  obtain ⟨new, new', hecho, hnew⟩ :=
    he.follows.step ac hd hc hc' rfl (fun _ _ => rfl) m.diagnostics
  -- an engine that follows itself has nothing more to say than itself
  have heq : new' = new := by
    split at hnew
    · exact hnew
    · exact hnew
  have hmachine := hecho.machine
  rw [heq, ← hecho.diagnostics] at hmachine
  exact ⟨hmachine, hecho.fault⟩

end Engine

/-- **The lane is on the way to where a loop comes out.** It has arrived there, or the loop comes
out there from where the lane is, in some world. -/
def Lane.Heads (e : Engine σ) (ac : Bool) (l : Lane) (t : Engine.Turn σ) : Prop :=
  (l.fault = none ∧ ∃ v, e.finish ac l.machine v = t) ∨
    (l.fault.isSome = true ∧ l.machine = t.machine ∧ l.fault = t.fault)

namespace Engine

variable {e : Engine σ} {ac : Bool}

theorem heads_ended {l : Lane} {t : Turn σ} (h : l.Heads e ac t) (hl : l.Ended) :
    l.machine = t.machine ∧ l.fault = t.fault := by
  -- Where the run is still to come, the lane has ended only by being done, and a run from there
  -- adds nothing.
  rcases h with ⟨hnone, v, rfl⟩ | ⟨-, hsame⟩
  · rcases hl with hd | hsome
    · rw [finish_of_done hd]
      exact ⟨rfl, hnone⟩
    · rw [hnone] at hsome
      cases hsome
  · exact hsame

/-- **A turn of its own keeps a lane on the way.** -/
theorem Functional.heads_step (he : e.Functional) {l : Lane} {t : Turn σ} (h : l.Heads e ac t)
    (hl : ¬l.Ended) (ht : t.world.cancelled = false) {w : World σ} (hc : w.cancelled = false) :
    Lane.Heads e ac ⟨(e.step ac l.machine w).machine, (e.step ac l.machine w).fault⟩ t := by
  have hd := stage_ne_of_not_ended hl
  rcases h with ⟨-, v, rfl⟩ | ⟨hsome, -⟩
  · -- the flag was down in the world of the other run, because it is down at the end of the loop
    have hv : v.cancelled = false := (finish_drifts e ac l.machine v).down ht
    obtain ⟨hmachine, hfault⟩ := he.step_eq ac hd hv hc
    rw [hmachine, hfault]
    cases hf : (e.step ac l.machine v).fault with
    | some f =>
      rw [finish_of_fault hd hf]
      exact .inr ⟨rfl, rfl, hf.symm⟩
    | none =>
      rw [finish_of_step hd hf]
      exact .inl ⟨rfl, _, rfl⟩
  · exact absurd (.inr hsome) hl

/-- As long as the run is not cancelled, the lanes are on the way to where loops come out, the one
at a position to where `ends` says. -/
def OnCourse (e : Engine σ) (ac : Bool) (ends : Nat → Option (Turn σ)) (c : Fleet σ) : Prop :=
  c.world.cancelled = false → ∀ (k : Nat) (l : Lane), c.lanes[k]? = some l →
    ∃ t, ends k = some t ∧ l.Heads e ac t

/-- **A step keeps all lanes on the way**, the one that moves and the others. -/
theorem OnCourse.advances (he : e.Functional) {ends : Nat → Option (Turn σ)}
    (hends : ∀ k t, ends k = some t → t.world.cancelled = false) {c c' : Fleet σ}
    (h : OnCourse e ac ends c) (hstep : e.Advances ac c c') : OnCourse e ac ends c' := by
  cases hstep with
  | @turn k l w hk hl hw =>
    intro hc j l' hj
    have hcw : w.cancelled = false := (step_drifts e ac l.machine w).down hc
    have hheads := h (hw.down hcw)
    -- the lane that moved is still on the way, and the others did not move
    by_cases hjk : k = j
    · subst hjk
      rw [List.getElem?_set_self (List.getElem?_eq_some_iff.mp hk).1] at hj
      cases hj
      obtain ⟨t, ht, hl'⟩ := hheads k l hk
      exact ⟨t, ht, he.heads_step hl' hl (hends k t ht) hcw⟩
    · rw [List.getElem?_set_ne hjk] at hj
      exact hheads j l' hj

theorem Advances.length_eq {c c' : Fleet σ} (h : e.Advances ac c c') :
    c'.lanes.length = c.lanes.length := by
  cases h with
  | turn hk hl hw => exact List.length_set

/-- **The reports of an interleaving are those of the sequential run.** Let rules and parser answer
for the text alone. However the turns of the sources are interleaved, there are no more than three
of them for each source and revision of the budget, and one for each source. A run that is at its
end has come to the end of all loops, and if neither it nor the sequential run was cancelled, it
reports on the sources in their order what the sequential run reports. -/
theorem interleaved_reports (he : e.Functional) (ac : Bool) (ss : List Source) (w : World σ) :
    (∀ cs : Nat → Fleet σ, cs 0 = embark ac ss w →
      ∃ n ≤ ss.length * (3 * e.maxIterations.toNat + 1), ¬e.Advances ac (cs n) (cs (n + 1))) ∧
    ∀ c, Relation.ReflTransGen (e.Advances ac) (embark ac ss w) c → (∀ c', ¬e.Advances ac c c') →
      (∀ l ∈ c.lanes, l.Ended) ∧
      (c.world.cancelled = false → (e.run ac ss w).1.cancelled = false →
        c.lanes.map (Lane.report e) = (e.run ac ss w).1.sources) := by
  refine ⟨fun cs h0 => ?_, fun c hreach hrest => ⟨ended_of_rest hrest, fun hc hrun => ?_⟩⟩
  · rw [← left_embark ac ss w, ← h0]
    exact exists_rest e ac cs
  -- Where the sequential run ends with each source: this is what a lane is heading for.
  let ends : Nat → Option (Turn σ) := fun k =>
    ss[k]?.map fun s => e.finish ac (start ac s) (e.takenUp ac ss w.resume k)
  have hends : ∀ k t, ends k = some t → t.world.cancelled = false := by
    intro k t ht
    obtain ⟨s, hs, rfl⟩ := Option.map_eq_some_iff.mp ht
    exact (drifts_processAll hs e ac w.resume).down hrun
  -- Every turn of a lane is one of the sequential loop over the same source, made later or earlier.
  have hcourse : c.lanes.length = ss.length ∧ OnCourse e ac ends c := by
    clear hc hrest
    induction hreach with
    | refl =>
      refine ⟨List.length_map _, fun _ k l hk => ?_⟩
      rw [embark, List.getElem?_map] at hk
      obtain ⟨s, hs, rfl⟩ := Option.map_eq_some_iff.mp hk
      have hend : ends k = some (e.finish ac (start ac s) (e.takenUp ac ss w.resume k)) := by
        simp only [ends, hs, Option.map_some]
      exact ⟨_, hend, .inl ⟨rfl, _, rfl⟩⟩
    | tail _ hstep ih => exact ⟨hstep.length_eq.trans ih.1, ih.2.advances he hends hstep⟩
  obtain ⟨hlength, hheads⟩ := hcourse
  -- Source by source: a lane that has ended is where the sequential loop ended.
  apply List.ext_getElem?
  intro k
  rw [getElem?_run_sources, List.getElem?_map]
  cases hk : c.lanes[k]? with
  | none =>
    have hs : ss[k]? = none := by
      rw [List.getElem?_eq_none_iff] at hk ⊢
      omega
    rw [hs]
    rfl
  | some l =>
    obtain ⟨t, ht, hl⟩ := hheads hc k l hk
    obtain ⟨s, hs, rfl⟩ := Option.map_eq_some_iff.mp ht
    obtain ⟨hmachine, hfault⟩ := heads_ended hl (ended_of_rest hrest l (List.mem_of_getElem? hk))
    rw [hs, Option.map_some, Option.map_some, process_fst, Lane.report_eq e hmachine hfault]

/-- Two sources, the second of which has its only turn after the first turn of the other. -/
theorem specimen_interleaved :
    ∃ c, Relation.ReflTransGen (specimen.Advances true)
        (embark true [Source.ofText "a", Source.ofText "b"] ⟨{}, false, []⟩) c ∧
      c.lanes.map (Lane.report specimen)
        = (specimen.run true [Source.ofText "a", Source.ofText "b"] ⟨{}, false, []⟩).1.sources ∧
      (c.lanes.map fun l => l.machine.source.text) = ["b", "b"] := by
  obtain ⟨-, hreports⟩ := interleaved_reports specimen_functional true
    [Source.ofText "a", Source.ofText "b"] ⟨{}, false, []⟩
  -- a schedule in which the second source has its turn between those of the first
  have hreach := reaches_sail specimen true [0, 1, 0, 0, 0]
    (embark true [Source.ofText "a", Source.ofText "b"] ⟨{}, false, []⟩)
  have hended : ∀ l ∈ (specimen.sail true [0, 1, 0, 0, 0]
      (embark true [Source.ofText "a", Source.ofText "b"] ⟨{}, false, []⟩)).lanes, l.Ended := by
    decide +kernel
  refine ⟨_, hreach, ?_, by decide +kernel⟩
  exact (hreports _ hreach (not_advances_of_ended hended)).2 (by decide +kernel) (by decide +kernel)

end Engine

end Lintel
