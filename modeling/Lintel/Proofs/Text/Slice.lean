import Lintel.Text.Location

/-!
# Slices

A slice is given by two indices that may be negative or lie behind the end, and `slice` makes the
best of them. Most indices are offsets of octets, which are neither; for these a slice is what it
seems to be (`slice_natCast`). Rules also ask for the single octet at an offset or before it, and
learn from the slice which octet stands there (`drop_of_slice_eq`).
-/

namespace Lintel

theorem slice_natCast {α : Type} (xs : List α) (i j : Nat) :
    slice xs (i : Int) (j : Int) = (xs.drop i).take (j - i) := by
  have hi : sliceIndex xs.length (i : Int) = min i xs.length := by
    rw [sliceIndex, if_neg (by omega), Int.toNat_natCast]
  have hj : sliceIndex xs.length (j : Int) = min j xs.length := by
    rw [sliceIndex, if_neg (by omega), Int.toNat_natCast]
  unfold slice
  simp only [hi, hj]
  by_cases h : i ≤ xs.length
  · -- taking more than there is makes no difference
    rw [Nat.min_eq_left h, List.take_eq_take_iff, List.length_drop]
    omega
  · have hmin : min i xs.length = xs.length := by omega
    rw [hmin, List.drop_of_length_le (Nat.le_refl _), List.drop_of_length_le (by omega),
      List.take_nil, List.take_nil]

theorem drop_of_slice_eq {bs : Bytes} {k : Nat} {b : UInt8}
    (h : slice bs (k : Int) ((k : Int) + 1) = [b]) : bs.drop k = b :: bs.drop (k + 1) := by
  -- As natural numbers the slice is what is taken of the rest.
  have hone : (bs.drop k).take 1 = [b] := by
    have hslice := slice_natCast bs k (k + 1)
    rw [Nat.add_sub_cancel_left] at hslice
    rw [← hslice]
    exact h
  rw [List.take_one] at hone
  cases hd : bs.drop k with
  | nil =>
    rw [hd] at hone
    cases hone
  | cons c rest =>
    rw [hd] at hone
    have htail : bs.drop (k + 1) = rest := by
      rw [← List.drop_drop, hd, List.drop_one, List.tail_cons]
    rw [htail]
    cases hone
    rfl

theorem slice_zero {α : Type} (xs : List α) (i : Int) : slice xs i 0 = [] := by
  have hzero : sliceIndex xs.length 0 = 0 := by
    rw [sliceIndex, if_neg (by omega), Int.toNat_zero, Nat.zero_min]
  unfold slice
  simp only [hzero, Nat.zero_sub, List.take_zero]

end Lintel
