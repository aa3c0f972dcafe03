/-!
# Slots

Whole numbers in a set are not listed as they came. Each has a slot that follows from the number,
and they are listed by their slots. The number of slots is a power of two and leaves at least
every other slot free.

A number whose slot is taken looks further: at some slots right after it, as long as these do not
reach the end, and then at a slot elsewhere, which depends on the upper digits of the number at
first and comes round to every slot in the end.
-/

namespace Lintel

namespace Slots

/-- The largest number that is not reduced before its slot is looked for, and one. -/
def modulus : Nat := Nat.pow 2 61 - 1

/-- What the slot of a number follows from. Minus one counts as minus two. -/
def residue (n : Int) : Int :=
  let r := n.tmod modulus
  if r = -1 then -2 else r

def count (numbers : Nat) : Nat :=
  -- the smallest table, which is not left before the fifth number
  if numbers < 5 then 8 else Nat.pow 2 (Nat.log2 (2 * numbers) + 1)

/-- How many slots after a taken one are looked at. -/
def reach : Nat := 9

/-- The slots that are looked at from a slot on. -/
def nearby (slots slot : Nat) : List Nat :=
  if slot + reach < slots then (List.range (reach + 1)).map (slot + ·) else [slot]

def free (taken : Nat → Bool) (slots : Nat) : Nat → Nat → Nat → Nat
  | 0, _, slot => slot
  | fuel + 1, upper, slot =>
    match (nearby slots slot).find? fun s => !taken s with
    | some s => s
    -- the upper digits run out, and from then on the walk goes through all slots
    | none => free taken slots fuel (upper / 32) ((slot * 5 + 1 + upper / 32) % slots)

/-- Give the next number its slot. -/
def place {α : Type} (slots : Nat) (placed : List (Nat × α)) (n : Int) (a : α) :
    List (Nat × α) :=
  let r := residue n
  let slot := free (fun s => placed.any (·.1 == s)) slots (slots + 64) (r % Nat.pow 2 64).toNat
    (r % slots).toNat
  placed ++ [(slot, a)]

def arrange {α : Type} (numbered : List (Int × α)) : List α :=
  let slots := count numbered.length
  let placed := numbered.foldl (fun placed e => place slots placed e.1 e.2) []
  (placed.mergeSort fun a b => decide (a.1 ≤ b.1)).map (·.2)

end Slots

end Lintel
