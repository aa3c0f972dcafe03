/-!
# What computations that may fail ensure

`Ensures bad good x` says of a computation what its errors and its results have in common: an error
is `bad`, and a result is `good`. It is passed on from the parts of a computation to the whole
(`Ensures.bind`), so to show that a reader fails in no other way than those it announces, one goes
through it step by step, with what is known of the results so far.
-/

namespace Lintel

variable {ε ε' α β : Type} {bad : ε → Prop} {good : α → Prop}

/-- An error of the computation is `bad`, and a result of it is `good`. -/
inductive Ensures (bad : ε → Prop) (good : α → Prop) : Except ε α → Prop where
  | error {e : ε} (h : bad e) : Ensures bad good (.error e)
  | ok {a : α} (h : good a) : Ensures bad good (.ok a)

@[simp] theorem ensures_ok {a : α} : Ensures bad good (.ok a : Except ε α) ↔ good a :=
  ⟨fun | .ok h => h, .ok⟩

@[simp] theorem ensures_error {e : ε} : Ensures bad good (.error e : Except ε α) ↔ bad e :=
  ⟨fun | .error h => h, .error⟩

namespace Ensures

theorem good_of_ok {x : Except ε α} {a : α} (h : Ensures bad good x) (hx : x = .ok a) : good a := by
  subst hx
  exact ensures_ok.mp h

theorem bad_of_error {x : Except ε α} {e : ε} (h : Ensures bad good x) (hx : x = .error e) :
    bad e := by
  subst hx
  exact ensures_error.mp h

/-- Less may be said of the errors and of the results. -/
theorem mono {bad' : ε → Prop} {good' : α → Prop} {x : Except ε α} (h : Ensures bad good x)
    (hbad : ∀ e, bad e → bad' e) (hgood : ∀ a, good a → good' a) : Ensures bad' good' x := by
  cases h with
  | error h => exact .error (hbad _ h)
  | ok h => exact .ok (hgood _ h)

/-- **One computation after the other**, where the second one may rely on what the first one
ensures. -/
theorem bind {next : β → Prop} {x : Except ε α} {f : α → Except ε β} (h : Ensures bad good x)
    (hf : ∀ a, good a → Ensures bad next (f a)) : Ensures bad next (x >>= f) := by
  cases h with
  | error h => exact .error h
  | ok h => exact hf _ h

theorem map {next : β → Prop} {x : Except ε α} {f : α → β} (h : Ensures bad good x)
    (hf : ∀ a, good a → next (f a)) : Ensures bad next (x.map f) := by
  cases h with
  | error h => exact .error h
  | ok h => exact .ok (hf _ h)

theorem mapError {bad' : ε' → Prop} {x : Except ε α} {f : ε → ε'} (h : Ensures bad good x)
    (hf : ∀ e, bad e → bad' (f e)) : Ensures bad' good (x.mapError f) := by
  cases h with
  | error h => exact .error (hf _ h)
  | ok h => exact .ok h

/-- A computation that goes on with each element of a list keeps what each step keeps. -/
theorem foldlM {inv : β → Prop} {f : β → α → Except ε β} {xs : List α} {b : β} (hb : inv b)
    (hf : ∀ b, inv b → ∀ x ∈ xs, Ensures bad inv (f b x)) : Ensures bad inv (xs.foldlM f b) := by
  induction xs generalizing b with
  | nil => exact .ok hb
  | cons x xs ih =>
    rw [List.foldlM_cons]
    refine (hf b hb x List.mem_cons_self).bind fun b' hb' => ?_
    exact ih hb' fun b hb y hy => hf b hb y (List.mem_cons_of_mem _ hy)

/-- Each result for an element of a list is good. -/
theorem mapM {next : β → Prop} {f : α → Except ε β} {xs : List α}
    (hf : ∀ x ∈ xs, Ensures bad next (f x)) :
    Ensures bad (fun ys => ∀ y ∈ ys, next y) (xs.mapM f) := by
  induction xs with
  | nil => exact .ok fun y hy => nomatch hy
  | cons x xs ih =>
    rw [List.mapM_cons]
    refine (hf x List.mem_cons_self).bind fun y hy => ?_
    refine (ih fun x hx => hf x (List.mem_cons_of_mem _ hx)).bind fun ys hys => ?_
    exact .ok (List.forall_mem_cons.mpr ⟨hy, hys⟩)

end Ensures

end Lintel
