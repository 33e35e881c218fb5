/-!
Bytes and the lines they form. Commands exchange bytes; text in them is in UTF-8.
-/

namespace LoopTuner.Shell

abbrev Bytes := List UInt8

def bytesOf (s : String) : Bytes := s.toUTF8.toList

/-- The bytes of a character. -/
def charBytes (c : Char) : Bytes := bytesOf (String.ofList [c])

/-- The bytes as text; a byte that is not ASCII stands for itself. -/
def Bytes.chars (b : Bytes) : List Char := b.map fun x => Char.ofNat x.toNat

/-- The bytes as a name or a number, which is ASCII. -/
def Bytes.text (b : Bytes) : String := (String.fromUTF8? b.toByteArray).getD (String.ofList b.chars)

def byte (c : Char) : UInt8 := c.toNat.toUInt8

def newline : UInt8 := byte '\n'

def isBlankByte (b : UInt8) : Bool := b == 32 || (9 ≤ b && b ≤ 13)

def isDigitByte (b : UInt8) : Bool := byte '0' ≤ b && b ≤ byte '9'

def isUpperByte (b : UInt8) : Bool := byte 'A' ≤ b && b ≤ byte 'Z'

def isLowerByte (b : UInt8) : Bool := byte 'a' ≤ b && b ≤ byte 'z'

def isAlphaByte (b : UInt8) : Bool := isUpperByte b || isLowerByte b

def isWordByte (b : UInt8) : Bool := isAlphaByte b || isDigitByte b || b == byte '_'

def lowerByte (b : UInt8) : UInt8 := if isUpperByte b then b + 32 else b

/-- The pieces between separators. -/
def piecesOf (isSeparator : UInt8 → Bool) (b : Bytes) : List Bytes :=
  b.foldr (fun x rest =>
    if isSeparator x then [] :: rest
    else match rest with
      | [] => [[x]]
      | p :: ps => (x :: p) :: ps) [[]]

/-- The lines, without their ends; an empty last line does not count. -/
def linesOf (b : Bytes) : List Bytes :=
  let cut := piecesOf (· == newline) b
  if cut.getLast?.any (·.isEmpty) then cut.dropLast else cut

def unlines (lines : List Bytes) : Bytes := lines.flatMap (· ++ [newline])

/-- The maximal runs of bytes that are not blank. -/
def fieldsOf (b : Bytes) : List Bytes := (piecesOf isBlankByte b).filter (!·.isEmpty)

/-- The number that the digits at the front form, and what follows them. -/
def leadingNat (b : Bytes) : Option (Nat × Bytes) :=
  match b.takeWhile isDigitByte with
  | [] => none
  | digits =>
    some (digits.foldl (fun n d => n * 10 + (d.toNat - '0'.toNat)) 0, b.dropWhile isDigitByte)

/-- The number that the bytes form. -/
def natOf? (b : Bytes) : Option Nat :=
  match leadingNat b with
  | some (n, []) => some n
  | _ => none

/-- The number that the bytes form, with an optional sign. -/
def intOf? (b : Bytes) : Option Int :=
  match b with
  | x :: rest =>
    if x == byte '-' then (natOf? rest).map fun n => -(n : Int)
    else if x == byte '+' then (natOf? rest).map fun n => (n : Int)
    else (natOf? b).map fun n => (n : Int)
  | [] => none

end LoopTuner.Shell
