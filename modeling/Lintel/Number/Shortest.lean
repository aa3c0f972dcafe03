import Lintel.Number.Binary64

/-!
# The shortest decimal form of a floating point number

Among the decimals that read back as a given number, the one with the fewest digits is written,
and among those the one nearest to the number. The search is direct: for one digit, two digits
and so on up to seventeen, the two neighbours of the number on that decimal grid are tested
against the interval of reals that round to the number. The ends of the interval belong to it
exactly when the significand is even.

The written form is positional when the decimal point falls within the first sixteen digits or at
most three zeros after the point precede the first digit; otherwise it has an exponent of at
least two digits.
-/

namespace Lintel

namespace Shortest

/-- The least `k` in `[k, k + fuel]` with `den ≤ num * 10 ^ k`. -/
def scaleUp (num den : Nat) : Nat → Nat → Nat
  | 0, k => k
  | fuel + 1, k => if den ≤ num * Nat.pow 10 k then k else scaleUp num den fuel (k + 1)

/-- The greatest `e` with `10 ^ e ≤ num / den`, for a positive quotient of ordinary size. -/
def ratioLog10 (num den : Nat) : Int :=
  if den ≤ num then ((Nat.toDigits 10 (num / den)).length : Int) - 1
  else -(scaleUp num den 400 1 : Int)

/-- The reals that round to a number, in units of a quarter of its last place: `low` and `high`
are the ends and `mid` is the number itself. -/
structure Interval where
  low : Nat
  mid : Nat
  high : Nat
  closed : Bool

/-- The interval of a positive finite number. Below a power of two the next number down is half
as far away. -/
def interval (x : Binary64) : Interval :=
  let m := x.significand
  -- the neighbour below has one exponent less, unless both are subnormal
  let narrow := x.fractionBits = 0 ∧ 1 < x.exponentBits
  ⟨if narrow then 4 * m - 1 else 4 * m - 2, 4 * m, 4 * m + 2, m % 2 = 0⟩

/-- Whether the scaled candidate lies in the interval, whose ends are scaled by `unit`. -/
def Interval.holds (i : Interval) (unit candidate : Nat) : Bool :=
  if i.closed then decide (i.low * unit ≤ candidate) && decide (candidate ≤ i.high * unit)
  else decide (i.low * unit < candidate) && decide (candidate < i.high * unit)

/-- The nearest decimal `c * 10 ^ p` of the interval, if one of the number's two neighbours on
that grid lies in it. -/
def onGrid (i : Interval) (quarterExponent p : Int) : Option Nat :=
  let unit := Nat.pow 2 quarterExponent.toNat * Nat.pow 10 (-p).toNat
  let step := Nat.pow 2 (-quarterExponent).toNat * Nat.pow 10 p.toNat
  let below := i.mid * unit / step
  let above := below + 1
  let hitBelow := i.holds unit (below * step)
  let hitAbove := i.holds unit (above * step)
  -- both read back as the number, and the nearer one is written
  if hitBelow && hitAbove then
    let down := i.mid * unit - below * step
    let up := above * step - i.mid * unit
    if down < up then some below
    else if up < down then some above
    else some (if below % 2 = 0 then below else above)
  else if hitBelow then some below
  else if hitAbove then some above
  else none

/-- Try the grids with `n`, `n + 1`, … digits. -/
def search (i : Interval) (quarterExponent top : Int) : Nat → Nat → Nat × Int
  | 0, n => (0, top - n + 1)
  | fuel + 1, n =>
    match onGrid i quarterExponent (top - n + 1) with
    | some c => (c, top - n + 1)
    | none => search i quarterExponent top fuel (n + 1)

/-- Digits `c` and a power `p`, so that the number reads `c * 10 ^ p`. -/
def decimal (x : Binary64) : Nat × Int :=
  let (num, den) := x.ratio
  search (interval x) (x.exponent - 2) (ratioLog10 num den) 17 1

def dropZeros (ds : List Char) : List Char :=
  (ds.reverse.dropWhile (· = '0')).reverse

/-- The exponent with its sign and at least two digits. -/
def exponentText (e : Int) : List Char :=
  let digits := Nat.toDigits 10 e.natAbs
  (if e < 0 then '-' else '+') :: (List.replicate (2 - digits.length) '0' ++ digits)

/-- The written form of the digits `ds` with the decimal point after the first `point` of them. -/
def layout (ds : List Char) (point : Int) : List Char :=
  if -4 < point ∧ point ≤ 16 then
    if point ≤ 0 then
      '0' :: '.' :: (List.replicate (-point).toNat '0' ++ ds)
    -- a whole number, which is shown to be none by the zero after its point
    else if ds.length ≤ point.toNat then
      ds ++ List.replicate (point.toNat - ds.length) '0' ++ ['.', '0']
    else
      ds.take point.toNat ++ '.' :: ds.drop point.toNat
  else
    match ds with
    | [] => []
    | [d] => d :: 'e' :: exponentText (point - 1)
    | d :: more => d :: '.' :: (more ++ 'e' :: exponentText (point - 1))

end Shortest

/-- The texts of the numbers that are not finite. -/
structure NonFiniteWords where
  infinity : String
  nan : String

/-- The written form of a number, given the words for the numbers that are not finite. -/
def Binary64.text (words : NonFiniteWords) (x : Binary64) : String :=
  let sign := if x.isNegative then "-" else ""
  if x.isNaN then words.nan
  else if !x.isFinite then sign ++ words.infinity
  else if x.isZero then sign ++ "0.0"
  else
    let (c, p) := Shortest.decimal x
    let all := Nat.toDigits 10 c
    sign ++ String.ofList (Shortest.layout (Shortest.dropZeros all) ((all.length : Int) + p))

end Lintel
