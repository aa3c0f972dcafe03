import Lintel.Proofs.Yaml.Quoted

/-!
# Runs

What is written plainly or in single quotes is written run by run: words, spaces and line breaks
(`runChars_runsOf`). Where no blank stands beside a line break, a word comes after each run of
spaces or line breaks, unless the text ends (`separated_runsOf`). So all blanks that the writer puts
around a line break of its own are dropped when the text is read, and no others.
-/

namespace Lintel

namespace Yaml

def Run.chars : Run → List Char
  | word cs => cs
  | spaces n => List.replicate n ' '
  | breaks n => List.replicate n '\n'

/-- A run of characters that are neither spaces nor line breaks. -/
def Run.isWord : Run → Bool
  | word _ => true
  | _ => false

def runChars (runs : List Run) : List Char :=
  runs.flatMap Run.chars

@[simp] theorem runChars_cons (r : Run) (runs : List Run) :
    runChars (r :: runs) = r.chars ++ runChars runs :=
  List.flatMap_cons

theorem runChars_addToRuns (c : Char) (runs : List Run) :
    runChars (addToRuns c runs) = c :: runChars runs := by
  unfold addToRuns
  -- a space or a break goes to a run of its kind or makes a new one; a letter likewise
  split
  · next h =>
    subst h
    split
    · rw [runChars_cons, runChars_cons, Run.chars, Run.chars, List.replicate_succ, List.cons_append]
    · rfl
  · split
    · next h =>
      subst h
      split
      · rw [runChars_cons, runChars_cons, Run.chars, Run.chars, List.replicate_succ,
          List.cons_append]
      · rfl
    · split
      · rfl
      · rfl

theorem runsOf_cons (c : Char) (cs : List Char) : runsOf (c :: cs) = addToRuns c (runsOf cs) := rfl

/-- **The runs of a text** have its characters. -/
theorem runChars_runsOf (cs : List Char) : runChars (runsOf cs) = cs := by
  induction cs with
  | nil => rfl
  | cons c cs ih => rw [runsOf_cons, runChars_addToRuns, ih]

/-- A word comes first, if anything does. -/
def StartsWord (runs : List Run) : Prop :=
  ∀ r, runs.head? = some r → r.isWord = true

/-- No word comes first. -/
def EndsWord (runs : List Run) : Prop :=
  ∀ r, runs.head? = some r → r.isWord = false

/-- Runs of which each is something, and words take turns with spaces and line breaks. -/
def Separated : List Run → Prop
  | [] => True
  | .word cs :: more => cs ≠ [] ∧ (∀ c ∈ cs, c ≠ ' ' ∧ c ≠ '\n') ∧ EndsWord more ∧ Separated more
  | .spaces n :: more => 0 < n ∧ StartsWord more ∧ Separated more
  | .breaks n :: more => 0 < n ∧ StartsWord more ∧ Separated more

theorem head?_runChars_spaces {n : Nat} (hn : 0 < n) (more : List Run) :
    (runChars (.spaces n :: more)).head? = some ' ' := by
  obtain ⟨n, rfl⟩ : ∃ m, n = m + 1 := ⟨n - 1, by omega⟩
  rfl

theorem head?_runChars_breaks {n : Nat} (hn : 0 < n) (more : List Run) :
    (runChars (.breaks n :: more)).head? = some '\n' := by
  obtain ⟨n, rfl⟩ : ∃ m, n = m + 1 := ⟨n - 1, by omega⟩
  rfl

/-- A character keeps runs separated, unless it is a blank beside a blank of the other kind. -/
theorem separated_addToRuns {c : Char} {runs : List Run} (h : Separated runs)
    (hspace : c = ' ' → (runChars runs).head? ≠ some '\n')
    (hfeed : c = '\n' → (runChars runs).head? ≠ some ' ') : Separated (addToRuns c runs) := by
  unfold addToRuns
  split
  · -- a space: it joins spaces, and does not come to stand in front of breaks
    next hc =>
    cases runs with
    | nil => exact ⟨Nat.one_pos, nofun, trivial⟩
    | cons r more =>
      cases r with
      | word cs => exact ⟨Nat.one_pos, fun r hr => by cases hr; rfl, h⟩
      | spaces n => exact ⟨Nat.succ_pos n, h.2⟩
      -- what `hspace` excludes
      | breaks n => exact absurd (head?_runChars_breaks h.1 more) (hspace hc)
  · next hc =>
    split
    · next hc =>
      cases runs with
      | nil => exact ⟨Nat.one_pos, nofun, trivial⟩
      | cons r more =>
        cases r with
        | word cs => exact ⟨Nat.one_pos, fun r hr => by cases hr; rfl, h⟩
        | spaces n => exact absurd (head?_runChars_spaces h.1 more) (hfeed hc)
        | breaks n => exact ⟨Nat.succ_pos n, h.2⟩
    · next hc' =>
      -- a character of a word: it joins a word, and stands in front of any other run
      have hword : ∀ d ∈ [c], d ≠ ' ' ∧ d ≠ '\n' := by
        intro d hd
        rw [List.mem_singleton.mp hd]
        exact ⟨hc, hc'⟩
      cases runs with
      | nil => exact ⟨List.cons_ne_nil _ _, hword, nofun, trivial⟩
      | cons r more =>
        cases r with
        | word cs =>
          obtain ⟨-, hcs, hends, hmore⟩ := h
          refine ⟨List.cons_ne_nil _ _, fun d hd => ?_, hends, hmore⟩
          rcases List.mem_cons.mp hd with rfl | hd
          · exact ⟨hc, hc'⟩
          · exact hcs d hd
        | spaces n => exact ⟨List.cons_ne_nil _ _, hword, fun r hr => by cases hr; rfl, h⟩
        | breaks n => exact ⟨List.cons_ne_nil _ _, hword, fun r hr => by cases hr; rfl, h⟩

theorem hasPair_cons {a b c : Char} {cs : List Char} (h : hasPair a b (c :: cs) = false) :
    (c = a → cs.head? ≠ some b) ∧ hasPair a b cs = false := by
  cases cs with
  | nil => exact ⟨fun _ => nofun, rfl⟩
  | cons d cs =>
    rw [hasPair, Bool.or_eq_false_iff, Bool.and_eq_false_iff] at h
    refine ⟨fun hc hd => ?_, h.2⟩
    cases hd
    -- The pair at the head is either not begun or not completed.
    rcases h.1 with hne | hne
    · exact absurd hc (of_decide_eq_false hne)
    · exact absurd rfl (of_decide_eq_false hne)

/-- **The runs of a text are separated** if no blank stands beside a line break. -/
theorem separated_runsOf {cs : List Char} (hspace : hasPair ' ' '\n' cs = false)
    (hfeed : hasPair '\n' ' ' cs = false) : Separated (runsOf cs) := by
  induction cs with
  | nil => trivial
  | cons c cs ih =>
    obtain ⟨hspace', hspace⟩ := hasPair_cons hspace
    obtain ⟨hfeed', hfeed⟩ := hasPair_cons hfeed
    -- What stands next is told by the first of the runs that follow.
    rw [← runChars_runsOf cs] at hspace' hfeed'
    rw [runsOf_cons]
    exact separated_addToRuns (ih hspace hfeed) hspace' hfeed'

/-! ### Single quotes -/

def Run.doubled : Run → Run
  | word cs => .word (doubleQuotes cs)
  | spaces n => .spaces n
  | breaks n => .breaks n

theorem doubleQuotes_cons (c : Char) (cs : List Char) :
    doubleQuotes (c :: cs) = (if c = '\'' then ['\'', '\''] else [c]) ++ doubleQuotes cs :=
  List.flatMap_cons

theorem runsOf_doubleQuotes (cs : List Char) :
    runsOf (doubleQuotes cs) = (runsOf cs).map Run.doubled := by
  induction cs with
  | nil => rfl
  | cons c cs ih =>
    rw [doubleQuotes_cons, runsOf_cons]
    by_cases hc : c = '\''
    · subst hc
      rw [if_pos rfl, List.cons_append, List.singleton_append, runsOf_cons, runsOf_cons, ih]
      -- a quote goes to the word at the start, or begins one
      cases runsOf cs with
      | nil => rfl
      | cons r more => cases r <;> rfl
    · rw [if_neg hc, List.singleton_append, runsOf_cons, ih]
      have hone : doubleQuotes [c] = [c] := by
        rw [doubleQuotes_cons, if_neg hc]
        rfl
      have hcons : ∀ w, doubleQuotes (c :: w) = c :: doubleQuotes w := by
        intro w
        rw [doubleQuotes_cons, if_neg hc, List.singleton_append]
      unfold addToRuns
      by_cases hspace : c = ' '
      · rw [if_pos hspace, if_pos hspace]
        cases runsOf cs with
        | nil => rfl
        | cons r more => cases r <;> rfl
      · rw [if_neg hspace, if_neg hspace]
        by_cases hfeed : c = '\n'
        · rw [if_pos hfeed, if_pos hfeed]
          cases runsOf cs with
          | nil => rfl
          | cons r more => cases r <;> rfl
        · rw [if_neg hfeed, if_neg hfeed]
          cases runsOf cs with
          | nil => simp [Run.doubled, hone]
          | cons r more => cases r <;> simp [Run.doubled, hone, hcons]

/-- Words are read back between single quotes. -/
theorem ReadsTo.doubleQuotes {w more cs after : List Char}
    (hw : ∀ c ∈ w, isInert false c = true ∨ c = '\'') (h : ReadsTo false more cs after) :
    ReadsTo false (doubleQuotes w ++ more) (w ++ cs) after := by
  induction w with
  | nil => exact h
  | cons c w ih =>
    have hmore := ih fun d hd => hw d (List.mem_cons_of_mem _ hd)
    rw [doubleQuotes_cons, List.append_assoc]
    -- a quote is written twice and read as one
    by_cases hc : c = '\''
    · subst hc
      rw [if_pos rfl]
      exact takes_quote.readsTo hmore
    · rw [if_neg hc]
      have hinert := (hw c List.mem_cons_self).resolve_right hc
      exact (takes_inert hinert).readsTo hmore

/-- Printable ASCII and line feeds only. -/
def Inked (cs : List Char) : Prop :=
  ∀ c ∈ cs, c = '\n' ∨ isPlainAscii c = true

theorem inert_of_inked {w : List Char} (h : Inked w) (hw : ∀ c ∈ w, c ≠ ' ' ∧ c ≠ '\n') :
    ∀ c ∈ w, isInert false c = true ∨ c = '\'' := by
  intro c hc
  -- The single quote is doubled when written, so it is listed apart.
  by_cases hquote : c = '\''
  · exact .inr hquote
  · have hplain := (h c hc).resolve_left (hw c hc).2
    have htab : c ≠ '\t' := by
      rintro rfl
      exact absurd hplain (by decide)
    left
    rw [isInert, isBreak_of_isPlainAscii hplain, isSpace]
    simp [(hw c hc).1, htab, hquote]

/-- Where a word comes first, or the closing quote, there is text. -/
theorem startsText_writeRuns {split inside : Bool} {indent column : Nat} {runs : List Run}
    {after : List Char} (hsep : Separated runs) (hinked : Inked (runChars runs))
    (hword : StartsWord runs) :
    StartsText (writeRuns split indent column inside (runs.map Run.doubled) ++ '\'' :: after) := by
  cases runs with
  | nil => exact ⟨'\'', rfl, rfl, rfl⟩
  | cons r more =>
    cases r with
    | word w =>
      have hinert := inert_of_inked (fun c hc => hinked c (List.mem_append_left _ hc)) hsep.2.1
      cases w with
      | nil => exact absurd rfl hsep.1
      | cons c w =>
        rw [List.map_cons, Run.doubled, writeRuns, doubleQuotes_cons]
        rcases hinert c List.mem_cons_self with hc | rfl
        · -- a quote is doubled, and any other character of a word is text
          have hquote : c ≠ '\'' := by
            rintro rfl
            exact absurd hc (by decide)
          rw [if_neg hquote]
          exact startsText_of_inert hc
        · exact ⟨'\'', rfl, rfl, rfl⟩
    | spaces n => exact absurd (hword _ rfl) Bool.false_ne_true
    | breaks n => exact absurd (hword _ rfl) Bool.false_ne_true

/-- **Single quotes are read back.** -/
theorem readsTo_writeRuns (split : Bool) {indent : Nat} (hindent : 0 < indent)
    {after : List Char} (hafter : after.head? ≠ some '\'') {runs : List Run}
    (hsep : Separated runs) (hinked : Inked (runChars runs)) (column : Nat) (inside : Bool) :
    ReadsTo false (writeRuns split indent column inside (runs.map Run.doubled) ++ '\'' :: after)
      (runChars runs) after := by
  induction runs generalizing column inside with
  | nil => exact readsTo_close fun _ => hafter
  | cons r more ih =>
    have hmore : Inked (runChars more) := fun c hc => hinked c (List.mem_append_right _ hc)
    rw [List.map_cons, runChars_cons]
    cases r with
    -- A word is read back with each doubled quote as one.
    | word w =>
      obtain ⟨-, hw, -, hsep'⟩ := hsep
      rw [Run.doubled, writeRuns, List.append_assoc]
      exact (ih hsep' hmore _ _).doubleQuotes
        (inert_of_inked (fun c hc => hinked c (List.mem_append_left _ hc)) hw)
    | spaces n =>
      obtain ⟨hn, hword, hsep'⟩ := hsep
      rw [Run.doubled, writeRuns]
      split
      · next hfold =>
        -- the line is folded at the space
        have hone : n = 1 := by
          simp only [Bool.and_eq_true, decide_eq_true_eq] at hfold
          exact hfold.1.1.1.1
        subst hone
        rw [List.append_assoc]
        exact (takes_breaks (n := 0) hindent (startsText_writeRuns hsep' hmore hword)).readsTo
          (ih hsep' hmore indent true)
      · rw [List.append_assoc]
        exact (takes_spaces hn (startsText_writeRuns hsep' hmore hword)).readsTo
          (ih hsep' hmore _ _)
    -- Line breaks are written one more than there are, since a single one would be read as a space.
    | breaks n =>
      obtain ⟨hn, hword, hsep'⟩ := hsep
      have hnext := ih hsep' hmore indent true
      have htakes : Takes false (List.replicate n '\n' ++ newLine indent
          ++ (writeRuns split indent indent true (more.map Run.doubled) ++ '\'' :: after))
          (if n = 0 then [' '] else List.replicate n '\n')
          (writeRuns split indent indent true (more.map Run.doubled) ++ '\'' :: after) :=
        takes_breaks hindent (startsText_writeRuns hsep' hmore hword)
      rw [if_neg (by omega)] at htakes
      rw [Run.doubled, writeRuns, List.append_assoc]
      exact htakes.readsTo hnext

/-- What may stand in single quotes: blanks do not stand beside line breaks. -/
theorem fitsSingle_iff {cs : List Char} : fitsSingle cs = true ↔
    Inked cs ∧ hasPair ' ' '\n' cs = false ∧ hasPair '\n' ' ' cs = false := by
  simp only [fitsSingle, Inked, Bool.and_eq_true, Bool.not_eq_true', List.all_eq_true,
    Bool.or_eq_true, decide_eq_true_eq, and_assoc]

end Yaml

end Lintel
