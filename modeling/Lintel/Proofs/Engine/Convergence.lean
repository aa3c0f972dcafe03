import Lintel.Proofs.Engine.Library

/-!
# The library's rules come to an end

The two rules that correct feed each other: where parentheses go, spaces may come, and at the end
of a line these are blanks to be removed. Neither the length of the text nor the number of issues
has to become smaller in a round. What does is the **burden** of the text, in which a parenthesis
weighs as much as two blanks: two parentheses weigh four, and at most two spaces take their place.

Each edit makes the burden smaller by at least one, and each round makes at least one edit. So there
are at most as many rounds as the burden of the first text says, and a budget above it is never used
up (`run_converges`). The argument does not look at which of the proposed edits are chosen, nor at
the trees of the parser beyond that the nodes of parentheses fit the text.
-/

namespace Lintel

def isParen (b : UInt8) : Bool := b == 0x28 || b == 0x29

/-- **The burden of a text**: twice the number of its parentheses and the number of its blanks. -/
def burden (bs : Bytes) : Nat :=
  2 * bs.countP isParen + bs.countP Rules.TrailingWhitespace.isSpace

theorem burden_append (xs ys : Bytes) : burden (xs ++ ys) = burden xs + burden ys := by
  unfold burden
  rw [List.countP_append, List.countP_append]
  omega

/-- The burden has become smaller by at least a number. -/
def Lightens (n : Nat) (old new : Bytes) : Prop :=
  burden new + n ≤ burden old

theorem graded_lightens : Graded Lightens where
  same bs := Nat.le_refl _
  join hm hn := by
    unfold Lightens at *
    rw [burden_append, burden_append]
    omega
  follow hm hn := by
    unfold Lightens at *
    omega

namespace Rules

theorem burden_padding_le (c : Bool) : burden (RedundantParentheses.padding c) ≤ 1 := by
  cases c with
  | true => decide
  | false => decide

theorem length_le_burden {blanks : Bytes}
    (h : ∀ b ∈ blanks, TrailingWhitespace.isSpace b = true) : blanks.length ≤ burden blanks := by
  have hcount : blanks.countP TrailingWhitespace.isSpace = blanks.length :=
    List.countP_eq_length.mpr h
  unfold burden
  omega

/-- **What mends a text lightens it**, if it takes something away. -/
theorem Mends.lightens {rule : String} {old new : Bytes} (h : Mends rule old new)
    (hne : old ≠ []) : Lightens 1 old new := by
  unfold Lightens
  cases h with
  | trim blanks hall =>
    have hlength := List.length_pos_iff.mpr hne
    have hle := length_le_burden hall
    have hnil : burden [] = 0 := rfl
    omega
  | unwrap inner left right =>
    -- two parentheses weigh four, and the two spaces at most one each
    have hold : burden (0x28 :: (inner ++ [0x29])) = burden inner + 4 := by
      have hopen : burden [0x28] = 2 := by decide
      have hclose : burden [0x29] = 2 := by decide
      rw [← List.singleton_append, burden_append, burden_append]
      omega
    have hleft := burden_padding_le left
    have hright := burden_padding_le right
    rw [burden_append, burden_append, hold]
    omega
  | pad left right => exact absurd rfl hne

end Rules

namespace Engine

variable {σ : Type} {e : Engine σ} {ac : Bool}

/-- The library's rules lighten the text with every edit. -/
theorem Shipped.upholds_lightens (he : e.Shipped) (hf : e.parser.Fits) :
    e.Upholds Lightens fun _ => 1 := by
  intro path text i edit hgrounds
  obtain ⟨old, hreplaces, hmends, hne⟩ := he.mends hgrounds
  exact ⟨old, hreplaces, hmends.lightens (hne hf)⟩

theorem length_le_total {rounds : List Round} (h : ∀ r ∈ rounds, r.Sound) :
    rounds.length ≤ total (fun _ => 1) rounds := by
  induction rounds with
  | nil => exact Nat.zero_le _
  | cons r rounds ih =>
    have hrest := ih fun q hq => h q (List.mem_cons_of_mem _ hq)
    have hr := h r List.mem_cons_self
    have hpos : 0 < r.corrected.length := by
      rw [hr.length_corrected]
      exact List.length_pos_iff.mpr hr.edits_ne_nil
    -- a round applies at least one edit, and each edit corrects one issue
    have hsum : (r.corrected.map fun _ => 1).sum = r.corrected.length := by
      rw [List.map_const', List.sum_replicate_nat, Nat.mul_one]
    rw [total_cons, hsum, List.length_cons]
    omega

/-- **Rounds are paid for by the burden**: it is what is left of the first one. -/
theorem Upheld.iterations_le {s : Source} {past : List (Machine × World σ)} {m : Machine}
    (h : Upheld e Lightens (fun _ => 1) s past m) (ht : Tracked e s past m) :
    m.iterations + burden (Utf8.ofString m.source.text) ≤ burden (Utf8.ofString s.text) := by
  have hkept : burden (Utf8.ofString m.source.text) + total (fun _ => 1) (e.roundsOf past)
      ≤ burden (Utf8.ofString s.text) := h.kept
  have hle := length_le_total ht.sound
  rw [ht.iterations]
  omega

/-! ### Within the budget -/

theorem Moves.converged {m m' : Machine} {w w' : World σ} (hm : Moves e ac m w m' w')
    (h : m.converged = true) (hb : (m.iterations : Int) < e.maxIterations) :
    m'.converged = true := by
  cases hm with
  | abort hc => exact h
  | settle hc hs a ha hp => exact h
  -- the one move that ends without convergence, and it is barred
  | exhaust hc hs a ha hac hp hused => exact absurd hused (by omega)
  | proceed hc hs a ha hac hp hb => exact h
  | rest hc hs hn => exact h
  | revise hc hs hch hr => exact h
  | reparse hc hs p hp => exact h

/-- What holds along a run of the library's rules. -/
structure Lightening (e : Engine σ) (s : Source) (past : List (Machine × World σ)) (m : Machine) :
    Prop where
  upheld : Upheld e Lightens (fun _ => 1) s past m
  tracked : Tracked e s past m
  converged : (burden (Utf8.ofString s.text) : Int) < e.maxIterations → m.converged = true

theorem Lightening.initial {s : Source} (hs : s.Coherent) (hp : s.ParsedBy e.parser) :
    Lightening e s [] (start ac s) where
  upheld := ⟨Grounded.initial hs hp, graded_lightens.same _⟩
  tracked := Tracked.initial hs
  converged _ := rfl

theorem Lightening.step (he : e.Shipped) (hf : e.parser.Fits) {s : Source}
    {past : List (Machine × World σ)} {m : Machine} {w : World σ} (h : Lightening e s past m)
    (hd : m.stage ≠ .done) (hfault : (e.step ac m w).fault = none) :
    Lightening e s (past ++ [(m, w)]) (e.step ac m w).machine := by
  have hmoves := moves_step hd hfault
  have hle := h.upheld.iterations_le h.tracked
  exact
    { upheld := h.upheld.step graded_lightens (he.upholds_lightens hf) hd hfault
      tracked := h.tracked.step hmoves.effect
      converged := fun hlt => hmoves.converged (h.converged hlt) (by omega) }

/-- **The library's rules come to an end.** For every choice and configuration of them, every parser
that answers for all texts and whose nodes of parentheses fit the text, and every source of a run
that corrects: the text is revised at most as often as its burden says, and if the budget is above
the burden, the run converges and leaves nothing over. -/
theorem run_converges (rules : List (Rule σ)) (hne : rules ≠ [])
    (hrules : ∀ r ∈ rules, r.kind ∈ Rules.shipped) (parser : Parser σ) (hans : parser.Answers)
    (hfits : parser.Fits) (cwd : String) (budget : Int) :
    ∃ e, Engine.ofRules rules parser cwd budget = .ok e ∧
      ∀ (ss : List Source) (w : World σ) (k : Nat) (s : Source), ss[k]? = some s → s.Coherent →
        s.ParsedBy parser →
        ∃ r, (e.run true ss w).1.sources[k]? = some r ∧
          r.iterations ≤ burden (Utf8.ofString s.text) ∧
          ((burden (Utf8.ofString s.text) : Int) < budget →
            r.converged = true ∧ ∀ i ∈ r.issues, i.status ≠ .unresolved) := by
  obtain ⟨e, hof, he, ⟨config, hparse⟩, rfl, rfl⟩ := shipped_of_ofRules hne hrules parser cwd budget
  refine ⟨e, hof, fun ss w k s hk hs hp => ?_⟩
  obtain ⟨w', states, t, hloops, hreport⟩ := (reports_run e true ss w).exists_loops hk
  obtain ⟨hnone, htracked, -, huntouched⟩ := he.ends hans hparse hs hp hloops
  have hend : Lightening e s states t.machine :=
    hloops.invariant (fun past m w hm hd hfault => hm.step he hfits hd hfault)
      (Lightening.initial hs hp) hnone
  have hafter : e.reportAfter t = reportOf t.machine := by
    rw [reportAfter, hnone]
  rw [hafter] at hreport
  refine ⟨_, hreport, ?_, fun hlt => ⟨hend.converged hlt, fun i hi hstatus => ?_⟩⟩
  · have hle := hend.upheld.iterations_le hend.tracked
    change t.machine.iterations ≤ _
    omega
  · -- an issue that is left over is one of the last pass, and the loop has not converged
    obtain ⟨hcur, hmem⟩ := mem_issues_of_mem_finalIssues htracked hi (by rw [hstatus]; decide)
      (by rw [hstatus]; decide)
    have hcases := he.status_of_untouched huntouched hcur hmem
    rw [hstatus, hend.converged hlt] at hcases
    revert hcases
    decide

/-- All rules of the library on a text where parentheses and blanks meet: the burden is seven, and
with a budget of eight the run converges. -/
theorem conditionParser_converges :
    burden (Utf8.ofString "if (a)  ") = 7 ∧
      ∃ e, Engine.ofRules (Rules.shipped.map Rule.ofKind) conditionParser "/work" 8 = .ok e ∧
        ∃ r, (e.run true [Source.ofText "if (a)  "] ⟨{}, false, []⟩).1.sources[0]? = some r ∧
          r.iterations ≤ 7 ∧ r.converged = true ∧ ∀ i ∈ r.issues, i.status ≠ .unresolved := by
  have hburden : burden (Utf8.ofString "if (a)  ") = 7 := by decide
  -- the theorem for all texts, at this text and budget
  obtain ⟨e, hof, hruns⟩ := run_converges (Rules.shipped.map Rule.ofKind) (List.cons_ne_nil _ _)
    kind_mem_of_mem_map_ofKind conditionParser conditionParser_answers conditionParser_fits
    "/work" 8
  obtain ⟨r, hr, hle, hconverges⟩ := hruns [Source.ofText "if (a)  "] ⟨{}, false, []⟩ 0 _ rfl
    (Source.coherent_ofText _ _) (Source.parsedBy_ofText _ _ _)
  have htext : (Source.ofText "if (a)  ").text = "if (a)  " := rfl
  rw [htext, hburden] at hle hconverges
  exact ⟨hburden, e, hof, r, hr, hle, hconverges (by decide)⟩

end Engine

end Lintel
