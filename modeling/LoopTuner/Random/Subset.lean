import LoopTuner.Random.Stream

/-!
Drawing a set of positions from a stream. Small sets out of many positions are drawn one by one,
large sets by shuffling the positions; the limits between the methods decide how many words are
drawn. Positions that no single word can hold take two words each. Every method yields distinct
positions whatever the words are.
-/

namespace LoopTuner.Random

/-- How often a draw that would be biased is repeated before the least value is taken. A repetition
is needed in less than half of the cases. -/
def attempts : Nat := 4096

/-- How many numbers of so many words there are. -/
def numbers (words : Nat) : Nat := Nat.pow 2 (32 * words)

/-- The first number whose product with `bound` has a low part of at most `zone` decides: the high part of the
product is below `bound`. -/
def drawScaled (words bound zone : Nat) : Nat → Stream → Nat × Stream
  | 0, s => (0, s)
  | fuel + 1, s =>
    let (v, s) := s.draw words
    let product := v * bound
    if product % numbers words ≤ zone then (product / numbers words, s)
    else drawScaled words bound zone fuel s

/-- The largest product of `bound` by a power of two that is at most the count of words, less one. -/
def powerZone (bound : Nat) : Nat := bound * Nat.pow 2 (31 - bound.log2) - 1

/-- The largest multiple of `bound` that is at most the count of numbers, less one. -/
def multipleZone (words bound : Nat) : Nat := numbers words - 1 - (numbers words - bound) % bound

/-- A number from `lo` to `hi`. -/
def drawBetween (lo hi : Nat) (s : Stream) : Nat × Stream :=
  let bound := hi - lo + 1
  let (n, s) := drawScaled 1 bound (powerZone bound) attempts s
  (lo + min n (hi - lo), s)

theorem drawBetween_le {lo hi : Nat} (h : lo ≤ hi) (s : Stream) : (drawBetween lo hi s).1 ≤ hi := by
  have := Nat.min_le_right (drawScaled 1 (hi - lo + 1) (powerZone (hi - lo + 1)) attempts s).1 (hi - lo)
  simp only [drawBetween]
  omega

/-- Shuffles the front of the positions in place: the place `i` takes a position from `i` on. -/
def shuffleFront (last : Nat) : Nat → Nat → Array Nat → Stream → Array Nat × Stream
  | 0, _, positions, s => (positions, s)
  | count + 1, i, positions, s =>
    let (j, s) := drawBetween i last s
    shuffleFront last count (i + 1) (positions.swapIfInBounds i j) s

def drawByShuffling (length amount : Nat) (s : Stream) : List Nat × Stream :=
  let (positions, s) := shuffleFront (length - 1) amount 0 (Array.range length) s
  ((positions.extract 0 amount).toList, s)

/-- Adds for each `j` from `first` on a position up to `j`, and `j` itself if that is taken. -/
def drawGrowing : Nat → Nat → List Nat → Stream → List Nat × Stream
  | 0, _, picked, s => (picked, s)
  | count + 1, j, picked, s =>
    let (t, s) := drawBetween 0 j s
    drawGrowing count (j + 1) ((if picked.contains t then j else t) :: picked) s

/-- The draws that put a set into random order; the set does not depend on them. -/
def drawOrder : Nat → Stream → Stream
  | 0, s => s
  | i + 1, s => drawOrder i (drawBetween 0 (i + 1) s).2

def drawByGrowing (length amount : Nat) (s : Stream) : List Nat × Stream :=
  let (picked, s) := drawGrowing amount (length - amount) [] s
  (picked, if 50 ≤ amount then drawOrder (amount - 1) s else s)

/-- Draws until the position is new. -/
def drawFresh (words length : Nat) (picked : List Nat) : Nat → Stream → Option Nat × Stream
  | 0, s => (none, s)
  | fuel + 1, s =>
    let (t, s) := drawScaled words length (multipleZone words length) attempts s
    if picked.contains t || length ≤ t then drawFresh words length picked fuel s else (some t, s)

/-- The least position that is not taken. -/
def leastFree (length : Nat) (picked : List Nat) : Nat :=
  ((List.range length).find? (!picked.contains ·)).getD length

/-- Adds new positions one by one. Even a single free position is found by so many draws for each position. -/
def drawRejecting (words length : Nat) : Nat → List Nat → Stream → List Nat × Stream
  | 0, picked, s => (picked, s)
  | count + 1, picked, s =>
    let (t, s) := drawFresh words length picked (attempts * length) s
    drawRejecting words length count (t.getD (leastFree length picked) :: picked) s

/-- The positions of a long list are too many to be at hand all at once, and shuffling them pays less. -/
def isLong (length : Nat) : Bool := decide (500000 ≤ length)

/-- Below this length it is cheaper to shuffle all positions than to look each new one up among those before. -/
def growingLimit (length amount : Nat) : Float32 :=
  let (base, slope) : Float32 × Float32 := if isLong length then (70 / 9, 8 / 45) else (10, 1.6)
  (base + slope * amount.toFloat32) * amount.toFloat32

/-- Below this length it is cheaper to shuffle all positions than to reject those that come twice. -/
def rejectingLimit (length amount : Nat) : Float32 :=
  (if isLong length then 330 / 9 else 270) * amount.toFloat32

/-- Draws `amount` distinct positions below `length`, for an amount of at most `length`. -/
def drawPositions (length amount : Nat) (s : Stream) : List Nat × Stream :=
  if numbers 1 ≤ length then drawRejecting 2 length amount [] s
  else if amount < 163 then
    if 11 < amount ∧ length.toFloat32 < growingLimit length amount then drawByShuffling length amount s
    else drawByGrowing length amount s
  else if length.toFloat32 < rejectingLimit length amount then drawByShuffling length amount s
  else drawRejecting 1 length amount [] s

/-- Marks the given places in a row of `length` marks. -/
def marks (length : Nat) (positions : List Nat) : Array Bool :=
  positions.foldl (fun m i => m.setIfInBounds i true) (Array.replicate length false)

/-- Keeps `amount` of the items, in their order. -/
def sample {α : Type} (items : List α) (amount : Nat) (s : Stream) : List α × Stream :=
  let (positions, s) := drawPositions items.length amount s
  let kept := (items.zip (marks items.length positions).toList).filterMap fun (x, keep) =>
    if keep then some x else none
  (kept, s)

end LoopTuner.Random
