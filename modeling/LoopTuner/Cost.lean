/-!
Costs are floats, and lower is better. Two orders are in use: the strict comparison of floats
decides which of two costs is an improvement, and `rank` orders all floats, the two zeros and NaN
included, so that sorting and the choice of a least element are always defined.
-/

namespace LoopTuner

namespace Cost

/-- The place of a float in the total order: by sign, then by magnitude, and NaN above infinity. -/
def rank (x : Float) : UInt64 :=
  let bits := x.toBits
  if bits >>> 63 == 0 then bits ||| 0x8000000000000000 else ~~~bits

/-- The total order on floats. -/
def cmp (x y : Float) : Ordering := compare (rank x) (rank y)

def le (x y : Float) : Bool := (cmp x y).isLE

def infinity : Float := 1.0 / 0.0

/-- Finite costs and positive infinity are kept; anything else counts as a failed measurement. -/
def isUsable (x : Float) : Bool := x.isFinite || (x.isInf && decide (0 < x))

/-- The first element of least key. -/
def leastBy {α : Type} (key : α → UInt64) : List α → Option α
  | [] => none
  | x :: xs => some (xs.foldl (fun best y => if key y < key best then y else best) x)

theorem leastBy_eq_none {α : Type} {key : α → UInt64} {xs : List α} :
    leastBy key xs = none ↔ xs = [] := by
  cases xs <;> simp [leastBy]

end Cost

/-- A running sum of costs. Opposite infinities clash; the sum is then undefined for good. -/
structure Tally where
  sum : Float
  clashed : Bool
  deriving DecidableEq

namespace Tally

def empty : Tally := ⟨0, false⟩

def add (t : Tally) (x : Float) : Tally where
  sum := t.sum + x
  clashed := t.clashed || (!t.sum.isNaN && !x.isNaN && (t.sum + x).isNaN)

@[simp] theorem sum_add (t : Tally) (x : Float) : (t.add x).sum = t.sum + x := rfl

/-- The mean over `count` entries; the mean of nothing is the empty sum. -/
def mean (t : Tally) (count : Nat) : Float := t.sum / (max 1 count).toFloat

end Tally

end LoopTuner
