/-!
Reproducible random words: the key stream of the cipher ChaCha with twelve rounds. A stream is a key
and the number of words already drawn, and each word is a function of the two, so how far a
computation has advanced its stream is one natural number.
-/

namespace LoopTuner.Random

abbrev Key := Vector UInt32 8

/-- The state of the cipher, sixteen words. -/
abbrev Block := Vector UInt32 16

def rotateLeft (x : UInt32) (n : UInt32) : UInt32 := (x <<< n) ||| (x >>> (32 - n))

/-- The quarter round on four words of the block. -/
def quarterRound (b : Block) (i j k l : Fin 16) : Block :=
  let x := b[i] + b[j]
  let w := rotateLeft (b[l] ^^^ x) 16
  let z := b[k] + w
  let y := rotateLeft (b[j] ^^^ z) 12
  let x := x + y
  let w := rotateLeft (w ^^^ x) 8
  let z := z + w
  let y := rotateLeft (y ^^^ z) 7
  (((b.set i x).set j y).set k z).set l w

/-- A round on the columns of the block, then one on its diagonals. -/
def doubleRound (b : Block) : Block :=
  let b := quarterRound b 0 4 8 12
  let b := quarterRound b 1 5 9 13
  let b := quarterRound b 2 6 10 14
  let b := quarterRound b 3 7 11 15
  let b := quarterRound b 0 5 10 15
  let b := quarterRound b 1 6 11 12
  let b := quarterRound b 2 7 8 13
  quarterRound b 3 4 9 14

/-- The block before the rounds: four constants, the key, the number of the block, and zeros. -/
def initialBlock (key : Key) (counter : Nat) : Block :=
  #v[0x61707865, 0x3320646E, 0x79622D32, 0x6B206574,
    key[0], key[1], key[2], key[3], key[4], key[5], key[6], key[7],
    UInt32.ofNat counter, UInt32.ofNat (counter / Nat.pow 2 32), 0, 0]

/-- Six double rounds, added to the block that they began with. -/
def keyBlock (key : Key) (counter : Nat) : Block :=
  let start := initialBlock key counter
  let mixed := doubleRound (doubleRound (doubleRound (doubleRound (doubleRound (doubleRound start)))))
  mixed.zipWith (· + ·) start

/-- The `n`-th word of the stream of a key. -/
def word (key : Key) (n : Nat) : UInt32 :=
  (keyBlock key (n / 16)).get ⟨n % 16, Nat.mod_lt _ (by decide)⟩

/-- The congruential generator that spreads a seed over a key. -/
def seedStep (state : UInt64) : UInt64 := state * 6364136223846793005 + 11634580027462260723

/-- The key word of a generator state: the high bits, rotated by the five highest. -/
def seedWord (state : UInt64) : UInt32 :=
  let folded := (((state >>> 18) ^^^ state) >>> 27).toUInt32
  let turn := (state >>> 59).toUInt32
  (folded >>> turn) ||| (folded <<< ((32 - turn) % 32))

/-- The generator state after `n` steps. -/
def seedState (seed : UInt64) : Nat → UInt64
  | 0 => seed
  | n + 1 => seedStep (seedState seed n)

def keyOfSeed (seed : UInt64) : Key := Vector.ofFn fun i => seedWord (seedState seed (i.val + 1))

/-- A stream of words, and how many of them were drawn. -/
structure Stream where
  key : Key
  position : Nat
  deriving DecidableEq

namespace Stream

def ofSeed (seed : UInt64) : Stream := ⟨keyOfSeed seed, 0⟩

/-- Draws the next word. -/
def next (s : Stream) : UInt32 × Stream := (word s.key s.position, ⟨s.key, s.position + 1⟩)

/-- Draws a number of so many words, the lowest word first. -/
def draw : Nat → Stream → Nat × Stream
  | 0, s => (0, s)
  | words + 1, s =>
    let (low, s) := s.next
    let (high, s) := draw words s
    (low.toNat + Nat.pow 2 32 * high, s)

end Stream

end LoopTuner.Random
