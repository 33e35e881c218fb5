import LoopTuner.Decimal.Shortest

/-!
The two written forms of a float. `Style.plain` never uses an exponent and writes an integral value
without a point; `Style.marked` always shows that the value is a float, by a point or an exponent.
-/

namespace LoopTuner.Decimal

/-- What a written form decides beyond the digits. -/
structure Style where
  /-- The text between an integral value and its exponent or end. -/
  integral : String
  /-- Whether nonzero values below `10 ^ -4` and values from `10 ^ 16` on have an exponent. -/
  exponents : Bool

def Style.plain : Style := ⟨"", false⟩

def Style.marked : Style := ⟨".0", true⟩

def zeros (n : Nat) : String := String.ofList (List.replicate n '0')

/-- Drops the zeros at the end of the digits. -/
def Scaled.text (d : Scaled) : String × Int :=
  let all := (toString d.digits).toList
  let kept := (all.reverse.dropWhile (· == '0')).reverse
  (String.ofList kept, d.exponent + (all.length : Int))

/-- Writes `0.digits * 10 ^ point` without an exponent. -/
def positional (style : Style) (digits : String) (point : Int) : String :=
  if point ≤ 0 then "0." ++ zeros (-point).toNat ++ digits
  else if digits.length ≤ point.toNat then
    digits ++ zeros (point.toNat - digits.length) ++ style.integral
  else
    String.ofList (digits.toList.take point.toNat) ++ "." ++
      String.ofList (digits.toList.drop point.toNat)

/-- Writes `0.digits * 10 ^ point` with one digit before the point. -/
def scientific (digits : String) (point : Int) : String :=
  let mantissa := match digits.toList with
    | [] => ""
    | [d] => String.ofList [d]
    | d :: rest => String.ofList (d :: '.' :: rest)
  mantissa ++ "e" ++ toString (point - 1)

/-- The text of a finite float that is not negative. -/
def Style.magnitude (style : Style) (bits : UInt64) : String :=
  let (m, q) := significand bits
  if m = 0 then "0" ++ style.integral
  else
    let (digits, point) := (shortest m q).text
    if style.exponents && (point < -3 || 16 < point) then scientific digits point
    else positional style digits point

/-- The text of a float. -/
def Style.write (style : Style) (x : Float) : String :=
  if x.isNaN then "NaN"
  else
    let bits := x.toBits
    let sign := if bits >>> 63 == 0 then "" else "-"
    sign ++ if x.isInf then "inf" else style.magnitude (bits &&& 0x7FFFFFFFFFFFFFFF)

end LoopTuner.Decimal
