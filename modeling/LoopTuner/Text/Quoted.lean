import LoopTuner.Text.Unprintable

/-!
Text between double quotes. The quote, the backslash and the usual controls are escaped by a
backslash; every other character that would not show by itself is written as its code point in
hexadecimal.
-/

namespace LoopTuner.Text.Quoted

/-- The escaped form of one character. -/
def escape (c : Char) : List Char :=
  match c with
  | '\x00' => ['\\', '0']
  | '\t' => ['\\', 't']
  | '\r' => ['\\', 'r']
  | '\n' => ['\\', 'n']
  | '"' => ['\\', '"']
  | '\\' => ['\\', '\\']
  | c =>
    if isUnprintable c then ['\\', 'u', '\x7b'] ++ Nat.toDigits 16 c.toNat ++ ['\x7d'] else [c]

/-- Writes the text between quotes. -/
def encode (s : String) : String :=
  String.ofList ('"' :: s.toList.flatMap escape ++ ['"'])

end LoopTuner.Text.Quoted
