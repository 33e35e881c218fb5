import LoopTuner.Decimal.Reading
import LoopTuner.Decimal.Shortest
import LoopTuner.Shell.Bytes

/-!
Formatted output: the escapes of `echo` and `printf`, and the conversions of `printf`.
-/

namespace LoopTuner.Shell

/-- The control that a letter after a backslash stands for. -/
def letterEscape (b : UInt8) : Option UInt8 :=
  if b == byte 'n' then some 10
  else if b == byte 't' then some 9
  else if b == byte 'r' then some 13
  else if b == byte 'a' then some 7
  else if b == byte 'b' then some 8
  else if b == byte 'f' then some 12
  else if b == byte 'v' then some 11
  else if b == byte 'e' then some 27
  else if b == byte '\\' then some 92
  else none

def isOctalByte (b : UInt8) : Bool := byte '0' ≤ b && b ≤ byte '7'

/-- At most `count` octal digits at the front. -/
def leadingOctal (count : Nat) (b : Bytes) : UInt8 × Bytes :=
  let digits := (b.take count).takeWhile isOctalByte
  ((digits.foldl (fun n d => n * 8 + (d.toNat - '0'.toNat)) 0).toUInt8, b.drop digits.length)

/-- One piece of a text with escapes. -/
inductive Escaped where
  | plain (b : UInt8)
  | stop

/-- Splits off the first byte of a text with escapes. Where `zeroFirst` holds, an octal escape begins
with a zero. -/
def nextEscaped (zeroFirst : Bool) (text : Bytes) : Option (Escaped × Bytes) :=
  match text with
  | [] => none
  | b :: rest =>
    if b != byte '\\' then some (.plain b, rest)
    else match rest with
      | [] => some (.plain b, [])
      | c :: after =>
        if zeroFirst && c == byte 'c' then some (.stop, [])
        else if zeroFirst && c == byte '0' then
          let (x, rest) := leadingOctal 3 after
          some (.plain x, rest)
        else if !zeroFirst && isOctalByte c then
          let (x, rest) := leadingOctal 3 rest
          some (.plain x, rest)
        else match letterEscape c with
          | some x => some (.plain x, after)
          | none => some (.plain b, rest)

/-- The bytes of a text with escapes; the flag tells whether it says to stop. -/
def unescape (zeroFirst : Bool) : Nat → Bytes → Bytes × Bool
  | 0, _ => ([], false)
  | fuel + 1, text =>
    match nextEscaped zeroFirst text with
    | none => ([], false)
    | some (.stop, _) => ([], true)
    | some (.plain b, rest) =>
      let (others, stop) := unescape zeroFirst fuel rest
      (b :: others, stop)

/-- What `echo` writes for its arguments. -/
def echoBytes (arguments : List Bytes) : Bytes :=
  let (silent, words) := match arguments with
    | first :: rest => if first == bytesOf "-n" then (true, rest) else (false, arguments)
    | [] => (false, [])
  let text := List.intercalate [32] words
  let (body, stop) := unescape true (text.length + 1) text
  if silent || stop then body else body ++ [newline]

/-- A conversion with its flags, width and precision. -/
structure Conversion where
  left : Bool
  zero : Bool
  plus : Bool
  space : Bool
  alternate : Bool
  width : Nat
  precision : Option Nat
  letter : UInt8

def Conversion.none : Conversion := ⟨false, false, false, false, false, 0, .none, 0⟩

/-- Reads the flags of a conversion. -/
def readFlags : Conversion → Bytes → Conversion × Bytes
  | c, [] => (c, [])
  | c, b :: rest =>
    if b == byte '-' then readFlags { c with left := true } rest
    else if b == byte '0' then readFlags { c with zero := true } rest
    else if b == byte '+' then readFlags { c with plus := true } rest
    else if b == byte ' ' then readFlags { c with space := true } rest
    else if b == byte '#' then readFlags { c with alternate := true } rest
    else (c, b :: rest)

/-- A width or precision, which may be an argument. -/
def readWidth (arguments : List Bytes) (rest : Bytes) : Nat × List Bytes × Bytes :=
  match rest with
  | b :: after =>
    if b == byte '*' then ((arguments.head?.bind natOf?).getD 0, arguments.drop 1, after)
    else match leadingNat rest with
      | some (n, after) => (n, arguments, after)
      | none => (0, arguments, rest)
  | [] => (0, arguments, [])

/-- Reads a conversion after its percent sign. -/
def readConversion (arguments : List Bytes) (rest : Bytes) :
    Option (Conversion × List Bytes × Bytes) :=
  let (c, rest) := readFlags Conversion.none rest
  let (width, arguments, rest) := readWidth arguments rest
  let (precision, arguments, rest) := match rest with
    | b :: after =>
      if b == byte '.' then
        let (n, arguments, rest) := readWidth arguments after
        (some n, arguments, rest)
      else (none, arguments, rest)
    | [] => (none, arguments, rest)
  match rest with
  | [] => none
  | letter :: rest =>
    some ({ c with width := width, precision := precision, letter := letter }, arguments, rest)

def pad (c : Conversion) (sign body : Bytes) : Bytes :=
  let missing := c.width - (sign.length + body.length)
  if c.left then sign ++ body ++ List.replicate missing 32
  else if c.zero then sign ++ List.replicate missing (byte '0') ++ body
  else List.replicate missing 32 ++ sign ++ body

def signBytes (c : Conversion) (negative : Bool) : Bytes :=
  if negative then [byte '-']
  else if c.plus then [byte '+']
  else if c.space then [32]
  else []

def integerBytes (c : Conversion) (n : Int) : Bytes :=
  let digits := bytesOf (toString n.natAbs)
  let digits := match c.precision with
    | some p => List.replicate (p - digits.length) (byte '0') ++ digits
    | none => digits
  pad { c with zero := c.zero && c.precision.isNone } (signBytes c (n < 0)) digits

def basedBytes (c : Conversion) (base : Nat) (upper : Bool) (n : Int) : Bytes :=
  let value := if n < 0 then (Nat.pow 2 64 - n.natAbs) else n.natAbs
  let digits := (Nat.toDigits base value).map fun d => byte (if upper then d.toUpper else d)
  let lead := if c.alternate && value != 0 then
      (if base = 16 then bytesOf (if upper then "0X" else "0x") else if base = 8 then [byte '0'] else [])
    else []
  pad c lead digits

/-- The integer nearest to `m * 2 ^ q * 10 ^ places`; a tie goes to the even one. -/
def scaledRound (m : Nat) (q : Int) (places : Int) : Nat :=
  let num := m * Nat.pow 2 q.toNat * Nat.pow 10 places.toNat
  let den := Nat.pow 2 (-q).toNat * Nat.pow 10 (-places).toNat
  let below := num / den
  let twice := 2 * (num % den)
  if twice < den ∨ (twice = den ∧ below % 2 = 0) then below else below + 1

/-- The digits with a point before the last `places` of them. -/
def pointed (digits : Nat) (places : Nat) (alternate : Bool) : Bytes :=
  let text := (toString digits).toList
  let text := List.replicate (places + 1 - text.length) '0' ++ text
  let whole := text.take (text.length - places)
  let fraction := text.drop (text.length - places)
  bytesOf (String.ofList (whole ++ (if places = 0 && !alternate then [] else '.' :: fraction)))

def fixedBytes (m : Nat) (q : Int) (places : Nat) (alternate : Bool) : Bytes :=
  pointed (scaledRound m q places) places alternate

/-- The digits of the number rounded to `places + 1` digits, and the exponent of the first one. -/
def exponentDigits (m : Nat) (q : Int) (places : Nat) : Nat × Int :=
  if m = 0 then (0, 0)
  else
    let exponent := (List.range 4).foldl (fun (e : Int) _ =>
      if scaledRound m q (places - e) < Nat.pow 10 places then e - 1 else e) (Decimal.gridBound m q)
    let digits := scaledRound m q (places - exponent)
    if digits = Nat.pow 10 (places + 1) then (Nat.pow 10 places, exponent + 1) else (digits, exponent)

def exponentText (letter : Char) (e : Int) : Bytes :=
  let digits := toString e.natAbs
  bytesOf (String.ofList [letter, if e < 0 then '-' else '+'] ++
    (if digits.length < 2 then "0" else "") ++ digits)

/-- Drops the zeros at the end of a fraction. -/
def dropZeros (text : Bytes) : Bytes :=
  if text.contains (byte '.') then
    let kept := text.reverse.dropWhile (· == byte '0')
    (if kept.head? == some (byte '.') then kept.drop 1 else kept).reverse
  else text

def floatBytes (c : Conversion) (x : Float) : Bytes :=
  let upper := isUpperByte c.letter
  let letter := lowerByte c.letter
  let bits := x.toBits
  let negative := bits >>> 63 != 0 && !x.isNaN
  let sign := signBytes c negative
  let raise (text : String) : Bytes := bytesOf (if upper then text.toUpper else text)
  if x.isNaN then pad { c with zero := false } sign (raise "nan")
  else if x.isInf then pad { c with zero := false } sign (raise "inf")
  else
    let (m, q) := Decimal.significand (bits &&& 0x7FFFFFFFFFFFFFFF)
    let places := c.precision.getD 6
    let e := if upper then 'E' else 'e'
    let body :=
      if letter == byte 'f' then fixedBytes m q places c.alternate
      else if letter == byte 'e' then
        let (digits, exponent) := exponentDigits m q places
        pointed digits places c.alternate ++ exponentText e exponent
      else
        let count := max places 1
        let (digits, exponent) := exponentDigits m q (count - 1)
        let trimmed (text : Bytes) : Bytes := if c.alternate then text else dropZeros text
        if -4 ≤ exponent ∧ exponent < count then
          trimmed (fixedBytes m q ((count : Int) - 1 - exponent).toNat c.alternate)
        else trimmed (pointed digits (count - 1) c.alternate) ++ exponentText e exponent
    pad c sign body

/-- What `printf` has written, and its complaints. -/
structure Printed where
  output : Bytes
  complaints : List String
  stopped : Bool
  rest : List Bytes

/-- The integer of an argument. A quote stands before a character; hexadecimal and octal numerals are
read as such. -/
def argumentInt (argument : Bytes) : Option Int :=
  match argument with
  | [] => some 0
  | b :: rest =>
    if b == byte '\'' || b == byte '"' then some ((rest.head?.map UInt8.toNat).getD 0)
    else
      let (negative, digits) :=
        if b == byte '-' then (true, rest) else if b == byte '+' then (false, rest)
        else (false, argument)
      let value : Option Nat := match digits with
        | z :: x :: more =>
          if z == byte '0' && lowerByte x == byte 'x' then
            more.foldlM (fun (n : Nat) d =>
              if isDigitByte d then some (n * 16 + (d.toNat - '0'.toNat))
              else if byte 'a' ≤ lowerByte d && lowerByte d ≤ byte 'f' then
                some (n * 16 + ((lowerByte d).toNat - 'a'.toNat + 10))
              else none) 0
          else if z == byte '0' then
            (x :: more).foldlM (fun (n : Nat) d =>
              if isOctalByte d then some (n * 8 + (d.toNat - '0'.toNat)) else none) 0
          else natOf? digits
        | digits => natOf? digits
      value.map fun n => if negative then -(n : Int) else n

/-- The number at the front of an argument that is not one as a whole. -/
def leadingInt (argument : Bytes) : Int :=
  match argument with
  | b :: rest =>
    if b == byte '-' then -(((leadingNat rest).map (·.1)).getD 0 : Int)
    else ((leadingNat argument).map (·.1)).getD 0
  | [] => 0

/-- Writes one argument as a conversion says, with a complaint if it is not of the right form. -/
def convert (c : Conversion) (argument : Option Bytes) : Bytes × List String × Bool :=
  let text := argument.getD []
  let complain : List String := [Bytes.text text ++ ": expected numeric value"]
  let withInt (write : Int → Bytes) : Bytes × List String × Bool :=
    match argumentInt text with
    | some n => (write n, [], false)
    | none => (write (leadingInt text),
        if (leadingNat text).isSome then [Bytes.text text ++ ": not completely converted"]
        else complain, false)
  let letter := c.letter
  if letter == byte 's' then
    (pad { c with zero := false } [] (match c.precision with
      | some p => text.take p
      | none => text), [], false)
  else if letter == byte 'b' then
    let (body, stop) := unescape true (text.length + 1) text
    (pad { c with zero := false } [] body, [], stop)
  else if letter == byte 'c' then (pad { c with zero := false } [] (text.take 1), [], false)
  else if letter == byte 'd' || letter == byte 'i' then withInt (integerBytes c)
  else if letter == byte 'u' then withInt fun n => basedBytes c 10 false n
  else if letter == byte 'o' then withInt fun n => basedBytes c 8 false n
  else if letter == byte 'x' then withInt fun n => basedBytes c 16 false n
  else if letter == byte 'X' then withInt fun n => basedBytes c 16 true n
  else
    if text.isEmpty then (floatBytes c 0, [], false)
    else match Decimal.read? (Bytes.chars text) with
      | some x => (floatBytes c x, [], false)
      | none => (floatBytes c 0, complain, false)

def isConversionLetter (b : UInt8) : Bool :=
  (bytesOf "sbcdiuoxXeEfFgG").contains b

/-- Writes the format once. -/
def printOnce : Nat → Bytes → List Bytes → Printed
  | 0, _, arguments => ⟨[], [], false, arguments⟩
  | fuel + 1, format, arguments =>
    let join (output : Bytes) (complaints : List String) (p : Printed) : Printed :=
      ⟨output ++ p.output, complaints ++ p.complaints, p.stopped, p.rest⟩
    match format with
    | [] => ⟨[], [], false, arguments⟩
    | b :: rest =>
      if b == byte '%' then
        match rest with
        | c :: after =>
          if c == byte '%' then join [b] [] (printOnce fuel after arguments)
          else
            match readConversion arguments rest with
            | none => ⟨[], ["missing format character"], true, []⟩
            | some (c, arguments, rest) =>
              if isConversionLetter c.letter then
                let (output, complaints, stop) := convert c arguments.head?
                if stop then ⟨output, complaints, true, []⟩
                else join output complaints (printOnce fuel rest (arguments.drop 1))
              else ⟨[], ["%" ++ Bytes.text [c.letter] ++ ": invalid directive"], true, []⟩
        | [] => ⟨[], ["missing format character"], true, []⟩
      else
        match nextEscaped false format with
        | some (.plain x, rest) => join [x] [] (printOnce fuel rest arguments)
        | _ => ⟨[], [], false, arguments⟩

/-- Writes the format until the arguments are used up. -/
def printAll : Nat → Bytes → List Bytes → Bytes × List String
  | 0, _, _ => ([], [])
  | fuel + 1, format, arguments =>
    let p := printOnce (format.length + 1) format arguments
    if p.stopped || p.rest.isEmpty || p.rest.length == arguments.length then
      (p.output, p.complaints)
    else
      let (output, complaints) := printAll fuel format p.rest
      (p.output ++ output, p.complaints ++ complaints)

end LoopTuner.Shell
