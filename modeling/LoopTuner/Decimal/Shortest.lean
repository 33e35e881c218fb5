/-!
The fewest decimal digits that still determine a binary float, and among those the nearest to it.

A finite positive float is `m * 2 ^ q`. The reals that round to it form an interval around it,
which holds its ends exactly when `m` is even. The decimal grids of step `10 ^ k` are tried from
the coarsest on; a grid offers the two neighbours of the float, and the first grid with a
neighbour in the interval wins.
-/

namespace LoopTuner.Decimal

/-- The number `digits * 10 ^ exponent`. -/
structure Scaled where
  digits : Nat
  exponent : Int
  deriving DecidableEq, Repr

/-- The pair `m`, `q` with value `m * 2 ^ q` of the finite float with these bits, less its sign. -/
def significand (bits : UInt64) : Nat × Int :=
  let exponent := (bits >>> 52 &&& 0x7FF).toNat
  let fraction := (bits &&& 0xFFFFFFFFFFFFF).toNat
  if exponent = 0 then (fraction, -1074) else (fraction + Nat.pow 2 52, (exponent : Int) - 1075)

/-- The interval of reals that round to a float, in units of `2 ^ (q - 2)`. -/
structure Interval where
  low : Nat
  value : Nat
  high : Nat
  closed : Bool

/-- A power of two stands nearer to the float below it than to the one above. -/
def Interval.around (m : Nat) : Interval where
  low := if m = Nat.pow 2 52 then 4 * m - 1 else 4 * m - 2
  value := 4 * m
  high := 4 * m + 2
  closed := m % 2 == 0

/-- The better neighbour on the grid `10 ^ k` of the value `i.value * num / den`, where `num / den`
is the unit of `i` divided by `10 ^ k`. A tie goes up. A grid coarser than the value offers none. -/
def Interval.onGrid (i : Interval) (num den : Nat) : Option Nat :=
  let below := i.value * num / den
  let rest := i.value * num % den
  let holdsBelow :=
    if i.closed then i.low * num ≤ below * den else i.low * num < below * den
  let holdsAbove :=
    if i.closed then (below + 1) * den ≤ i.high * num else (below + 1) * den < i.high * num
  if below = 0 then none
  else if holdsAbove ∧ (¬ holdsBelow ∨ den ≤ 2 * rest) then some (below + 1)
  else if holdsBelow then some below
  else none

/-- Tries the grids `10 ^ k`, `10 ^ (k - 1)`, and so on. -/
def Interval.firstHit (i : Interval) (unit : Int) : Nat → Int → Scaled
  | 0, k => ⟨i.value, k⟩
  | fuel + 1, k =>
    let num := Nat.pow 2 unit.toNat * Nat.pow 10 (-k).toNat
    let den := Nat.pow 2 (-unit).toNat * Nat.pow 10 k.toNat
    match i.onGrid num den with
    | some digits => ⟨digits, k⟩
    | none => i.firstHit unit fuel (k - 1)

/-- A power of ten that is at least a tenth of `m * 2 ^ q`; `1233 / 4096` is a little more than the
logarithm of two. -/
def gridBound (m : Nat) (q : Int) : Int := (m.log2 + q + 1) * 1233 / 4096 + 1

/-- The shortest decimal that rounds to `m * 2 ^ q`, for positive `m` below `2 ^ 53`. -/
def shortest (m : Nat) (q : Int) : Scaled :=
  (Interval.around m).firstHit (q - 2) 24 (gridBound m q)

end LoopTuner.Decimal
