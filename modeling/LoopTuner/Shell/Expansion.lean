import LoopTuner.Shell.Calculation
import LoopTuner.Shell.Pattern
import LoopTuner.Shell.Reader
import LoopTuner.Shell.State

/-!
Expansion of words. Parts become marked bytes; unquoted values are split into fields at separators,
and a field with pattern signs stands for the files that match it.
-/

namespace LoopTuner.Shell

/-- A byte of an expanded word. Only unquoted bytes of values are split at. -/
inductive Item where
  | glyph (byte : UInt8) (quoted splits : Bool)
  /-- A quoted part, which makes a field even if it is empty. -/
  | quotation
  /-- The end of a parameter among all positional ones. -/
  | boundary

/-- The fields of a row of items, from the one that is open on; `afterBlank` tells whether a blank
has closed the last field. -/
def splitItems (separators : Bytes) : Option (List (UInt8 × Bool)) → Bool → List Item →
    List (List (UInt8 × Bool))
  | opened, _, [] => opened.toList
  | opened, _, .quotation :: rest => splitItems separators (some (opened.getD [])) false rest
  | opened, _, .boundary :: rest => opened.toList ++ splitItems separators none false rest
  | opened, afterBlank, .glyph b quoted splits :: rest =>
    if splits && !quoted && separators.contains b then
      if isBlankByte b then
        opened.toList ++ splitItems separators none (opened.isSome || afterBlank) rest
      else if afterBlank && opened.isNone then splitItems separators none false rest
      else opened.getD [] :: splitItems separators none false rest
    else splitItems separators (some (opened.getD [] ++ [(b, quoted)])) false rest

/-- The bytes of items that are not split. -/
def joinItems (items : List Item) : List (UInt8 × Bool) :=
  items.filterMap fun
    | .glyph b quoted _ => some (b, quoted)
    | .quotation => none
    | .boundary => some (32, false)

/-- The files whose names match a field, or the field itself if there are none. -/
def matchFiles (files : Files) (field : List (UInt8 × Bool)) : List Bytes :=
  let plain := field.map (·.1)
  if field.any fun (b, quoted) => !quoted && (bytesOf "*?[").contains b then
    let pattern := readGlob (field.length + 1) field
    let isHidden (name : Bytes) : Bool := name.head? == some (byte '.')
    let names := (files.map fun f => bytesOf f.1).filter fun name =>
      Glob.matchAll pattern name && (isHidden plain || !isHidden name) && !name.contains (byte '/')
    if names.isEmpty then [plain]
    else names.mergeSort fun a b => Bytes.text a ≤ Bytes.text b
  else [plain]

namespace State

/-- Between the members of a joined list stands the first separator. -/
def separators (s : State) : Bytes := (s.value? "IFS").getD [32, 9, 10]

/-- The value of a parameter that is not a list. -/
def parameter? (s : State) (name : String) : Option Bytes :=
  match name with
  | "?" => some (bytesOf (toString s.status))
  | "$" => some (bytesOf (toString s.process))
  | "#" => some (bytesOf (toString s.positional.length))
  | "0" => some (bytesOf "sh")
  | "!" => s.lastJob.map fun n => bytesOf (toString n)
  | "-" => some (bytesOf ((if s.stopsOnFailure then "e" else "") ++ if s.refusesUnset then "u" else ""))
  | "@" | "*" =>
    if s.positional.isEmpty then none
    else some (List.intercalate (s.separators.take 1) s.positional)
  | name =>
    match name.toNat? with
    | some n => s.positional[n - 1]?
    | none => s.value? name

end State

def glyphs (quoted splits : Bool) (bytes : Bytes) : List Item :=
  bytes.map fun b => .glyph b quoted splits

/-- The items of a value. -/
def valueItems (quoted : Bool) (bytes : Bytes) : List Item := glyphs quoted true bytes

/-- The items of all positional parameters, one field each. -/
def listItems (quoted : Bool) (values : List Bytes) : List Item :=
  List.intercalate [.boundary] (values.map fun v =>
    (if quoted then [.quotation] else []) ++ valueItems quoted v)

/-- The items of a parameter as it is. -/
def parameterItems (quoted : Bool) (name : String) : Run (List Item) := do
  let s ← get
  if name = "@" || (name = "*" && !quoted) then return listItems quoted s.positional
  match s.parameter? name with
  | some value => return valueItems quoted value
  | none =>
    if s.refusesUnset && name != "*" && name != "!" then
      giveUp (name ++ ": parameter not set")
    return []

def faultText (expression : String) : Arithmetic.Fault → String
  | .expecting what =>
    "arithmetic expression: expecting " ++ what ++ ": \"" ++ expression ++ "\""
  | .divisionByZero => "arithmetic expression: division by zero: \"" ++ expression ++ "\""
  | .illegalNumber text => "Illegal number: " ++ text

/-- Evaluates an expression, whose assignments remain. -/
def evaluate (expression : String) : Run Bytes := do
  match Arithmetic.value expression (← get).bindings with
  | .ok (n, bindings) =>
    modify fun s => { s with bindings := bindings }
    return bytesOf (toString n)
  | .error fault =>
    giveUp (faultText expression fault)
    return []

mutual

/-- Expands a part. `capture` runs commands and returns what they write; `inner` tells whether the
part is the argument of a treatment, whose literal text is split too. -/
def expandPart (capture : List Command → Run Bytes) (quoted inner : Bool) :
    Part → Run (List Item)
  | .text q chars =>
    let q := quoted || q
    return (if q then [.quotation] else []) ++ glyphs q inner (chars.flatMap charBytes)
  | .output q body => return valueItems (quoted || q) (← capture body)
  | .arithmetic q expression => do
    let items ← expandParts capture true false expression
    return valueItems (quoted || q)
      (← evaluate (Bytes.text ((joinItems items).map (·.1))))
  | .parameter q name treatment argument => do
    let q := quoted || q
    let s ← get
    let value := s.parameter? name
    let isMissing (emptyToo : Bool) : Bool := value.isNone || emptyToo && value == some []
    match treatment with
    | .plain => parameterItems q name
    | .unknown =>
      giveUp "Bad substitution"
      return []
    | .length =>
      let size := if name = "@" || name = "*" then s.positional.length
        else (value.getD []).length
      return valueItems q (bytesOf (toString size))
    | .orElse emptyToo =>
      if isMissing emptyToo then expandParts capture q true argument else parameterItems q name
    | .andThen emptyToo =>
      if isMissing emptyToo then return [] else expandParts capture q true argument
    | .orAssign emptyToo =>
      if isMissing emptyToo && !name.toList.head?.any isNameStart then
        giveUp (name ++ ": bad variable name")
        return []
      else if isMissing emptyToo then
        let items ← expandParts capture q true argument
        modify fun s => s.setVariable name ((joinItems items).map (·.1))
        return items
      else parameterItems q name
    | .orFail emptyToo =>
      if isMissing emptyToo then
        let items ← expandParts capture q true argument
        let text := Bytes.text ((joinItems items).map (·.1))
        giveUp (name ++ ": " ++
          if text.isEmpty then "parameter not set" ++ if emptyToo then " or null" else "" else text)
        return []
      else parameterItems q name
    | .strip atEnd longest =>
      let pattern := joinItems (← expandParts capture false false argument)
      let glob := readGlob (pattern.length + 1) pattern
      return valueItems q (Glob.strip glob atEnd longest (value.getD []))

def expandParts (capture : List Command → Run Bytes) (quoted inner : Bool) :
    List Part → Run (List Item)
  | [] => return []
  | part :: rest => do
    let items ← expandPart capture quoted inner part
    return items ++ (← expandParts capture quoted inner rest)

end

/-- Expands a word to fields. -/
def expandFields (capture : List Command → Run Bytes) (word : List Part) : Run (List Bytes) := do
  let items ← expandParts capture false false word
  let s ← get
  return (splitItems s.separators none false items).flatMap (matchFiles s.files)

/-- Expands a word to one text. -/
def expandText (capture : List Command → Run Bytes) (word : List Part) : Run Bytes := do
  return (joinItems (← expandParts capture false false word)).map (·.1)

/-- Expands a word to a pattern. -/
def expandPattern (capture : List Command → Run Bytes) (word : List Part) : Run (List Glob) := do
  let pattern := joinItems (← expandParts capture false false word)
  return readGlob (pattern.length + 1) pattern

end LoopTuner.Shell
