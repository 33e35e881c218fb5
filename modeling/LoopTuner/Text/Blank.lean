/-!
Blank characters and the ways text is cut at separators. A cut loses nothing but the separators:
`pieces` has one piece more than its text has separators, and `words` are its nonempty pieces.
-/

namespace LoopTuner.Text

/-- The 25 code points of the Unicode property `White_Space`. -/
def isBlank (c : Char) : Bool :=
  let n := c.toNat
  (0x9 ≤ n && n ≤ 0xD) || n == 0x20 || n == 0x85 || n == 0xA0 || n == 0x1680 ||
    (0x2000 ≤ n && n ≤ 0x200A) || n == 0x2028 || n == 0x2029 || n == 0x202F || n == 0x205F ||
    n == 0x3000

def trimStart (s : List Char) : List Char := s.dropWhile isBlank

def trimEnd (s : List Char) : List Char := (s.reverse.dropWhile isBlank).reverse

/-- The text without the blanks at its two ends. -/
def trim (s : List Char) : List Char := trimEnd (trimStart s)

/-- Cuts at every separator; neighbouring separators leave an empty piece between them. -/
def pieces (isSeparator : Char → Bool) (s : List Char) : List (List Char) :=
  s.foldr (fun c rest =>
    if isSeparator c then [] :: rest
    else match rest with
      | [] => [[c]]
      | p :: ps => (c :: p) :: ps) [[]]

/-- The maximal runs of characters that are not blank. -/
def words (s : List Char) : List (List Char) := (pieces isBlank s).filter (!·.isEmpty)

/-- A carriage return at the end of a terminated line belongs to the line break. -/
def dropReturn (line : List Char) : List Char :=
  match line.reverse with
  | '\r' :: r => r.reverse
  | _ => line

/-- The lines of a text. A line feed ends a line, so a text that ends with one has no further,
empty line. -/
def lines (s : List Char) : List (List Char) :=
  let cut := pieces (· == '\n') s
  cut.dropLast.map dropReturn ++ (cut.drop (cut.length - 1)).filter (!·.isEmpty)

/-- The text before the first separator, or all of it. -/
def before (separator : Char) (s : List Char) : List Char := s.takeWhile (· != separator)

/-- The texts on both sides of the first separator. -/
def cutOnce (separator : Char) (s : List Char) : Option (List Char × List Char) :=
  match s.dropWhile (· != separator) with
  | [] => none
  | _ :: rest => some (before separator s, rest)

end LoopTuner.Text
