import LoopTuner.Text.Numeral

/-!
Reading a float: an optional sign, then `inf`, `infinity` or `nan` in any mixture of cases, or
decimal digits with an optional point and an optional exponent. At least one digit stands beside
the point. The value is the float nearest to the decimal.
-/

namespace LoopTuner.Decimal

open Text

/-- Splits off the leading digits and gives their values. -/
def leadingDigits (s : List Char) : List Nat × List Char :=
  ((s.takeWhile fun c => (Numeral.digit? c).isSome).filterMap Numeral.digit?,
    s.dropWhile fun c => (Numeral.digit? c).isSome)

def digitsValue (digits : List Nat) : Nat := digits.foldl (fun v d => v * 10 + d) 0

/-- Splits off a sign; the flag tells whether it is a minus. -/
def leadingSign : List Char → Bool × List Char
  | '-' :: rest => (true, rest)
  | '+' :: rest => (false, rest)
  | s => (false, s)

/-- The exponent after the digits, zero if there is none. -/
def readExponent? : List Char → Option Int
  | [] => some 0
  | c :: rest =>
    if c = 'e' ∨ c = 'E' then
      let (negative, rest) := leadingSign rest
      match leadingDigits rest with
      | ([], _) => none
      | (digits, []) =>
        let n : Int := digitsValue digits
        some (if negative then -n else n)
      | _ => none
    else none

/-- The float nearest to `digits * 10 ^ exponent`. Decimals beyond the range of floats are settled
by the place of their first digit. -/
def nearest (digits : Nat) (exponent : Int) : Float :=
  let point := (toString digits).length + exponent
  if digits = 0 then 0
  else if 310 < point then 1.0 / 0.0
  else if point < -330 then 0
  else if exponent < 0 then Float.ofScientific digits true (-exponent).toNat
  else Float.ofScientific digits false exponent.toNat

/-- Reads a decimal without a sign. -/
def readDecimal? (s : List Char) : Option Float :=
  let (whole, rest) := leadingDigits s
  let (fraction, rest) := match rest with
    | '.' :: rest => leadingDigits rest
    | rest => ([], rest)
  if whole.isEmpty && fraction.isEmpty then none
  else (readExponent? rest).map fun exponent =>
    nearest (digitsValue (whole ++ fraction)) (exponent - fraction.length)

/-- Reads the names of the values that have no digits. -/
def readName? (s : List Char) : Option Float :=
  let name := String.ofList (s.map Char.toLower)
  if name = "inf" ∨ name = "infinity" then some (1.0 / 0.0)
  else if name = "nan" then some (0.0 / 0.0)
  else none

/-- Reads a float. -/
def read? (s : List Char) : Option Float :=
  let (negative, rest) := leadingSign s
  ((readName? rest).or (readDecimal? rest)).map fun x => if negative then -x else x

theorem read?_nil : read? [] = none := rfl

end LoopTuner.Decimal
