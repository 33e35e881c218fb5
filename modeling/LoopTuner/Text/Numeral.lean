/-!
Decimal numerals of natural numbers below a limit. The characters are read from left to right and
the first one at fault decides the error, so a numeral that is both too large and malformed is
reported for whichever comes first.
-/

namespace LoopTuner.Text.Numeral

/-- Why a text is no numeral. -/
inductive Fault where
  | empty
  | badDigit
  | tooLarge
  deriving DecidableEq, Repr

def Fault.message : Fault → String
  | .empty => "cannot parse integer from empty string"
  | .badDigit => "invalid digit found in string"
  | .tooLarge => "number too large to fit in target type"

def digit? (c : Char) : Option Nat :=
  if '0' ≤ c ∧ c ≤ '9' then some (c.toNat - '0'.toNat) else none

/-- Reads further digits after the value `v`. -/
def readDigits (limit : Nat) : Nat → List Char → Except Fault Nat
  | v, [] => .ok v
  | v, c :: rest =>
    match digit? c with
    | none => .error .badDigit
    | some d => if v * 10 + d ≤ limit then readDigits limit (v * 10 + d) rest else .error .tooLarge

/-- Reads a numeral of at most `limit`. One plus sign may lead it, and leading zeros are allowed. -/
def read (limit : Nat) : List Char → Except Fault Nat
  | [] => .error .empty
  | ['+'] => .error .badDigit
  | '+' :: rest => readDigits limit 0 rest
  | s => readDigits limit 0 s

/-- The largest number of 64 bits. -/
def wordLimit : Nat := Nat.pow 2 64 - 1

/-- Reads a numeral of 64 bits. -/
def readWord (s : List Char) : Except Fault Nat := read wordLimit s

end LoopTuner.Text.Numeral
