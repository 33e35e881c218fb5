import LoopTuner.Shell.Bytes

/-!
Two notations for sets of texts: the patterns of the command language, and regular expressions. Both
match bytes. A regular expression is matched by the positions that it can reach, so that a match is as
long as possible and its computation ends.
-/

namespace LoopTuner.Shell

/-- A set of bytes. -/
structure ByteSet where
  negated : Bool
  ranges : List (UInt8 × UInt8)

def ByteSet.holds (s : ByteSet) (b : UInt8) : Bool :=
  s.negated != s.ranges.any fun r => r.1 ≤ b && b ≤ r.2

def ByteSet.single (b : UInt8) : ByteSet := ⟨false, [(b, b)]⟩

def ByteSet.all : ByteSet := ⟨true, []⟩

/-- The named classes of bytes. -/
def namedClass (name : String) : List (UInt8 × UInt8) :=
  let range (a b : Char) := (byte a, byte b)
  match name with
  | "alpha" => [range 'a' 'z', range 'A' 'Z']
  | "digit" => [range '0' '9']
  | "alnum" => [range 'a' 'z', range 'A' 'Z', range '0' '9']
  | "upper" => [range 'A' 'Z']
  | "lower" => [range 'a' 'z']
  | "space" => [(9, 13), (32, 32)]
  | "blank" => [(9, 9), (32, 32)]
  | "punct" => [range '!' '/', range ':' '@', range '[' '`', (123, 126)]
  | "xdigit" => [range '0' '9', range 'a' 'f', range 'A' 'F']
  | "print" => [(32, 126)]
  | "graph" => [(33, 126)]
  | "cntrl" => [(0, 31), (127, 127)]
  | _ => []

/-- Reads the members of a bracket expression up to its closing bracket. -/
def bracketMembers : Nat → Bool → Bytes → Option (List (UInt8 × UInt8) × Bytes)
  | 0, _, _ => none
  | _, _, [] => none
  | fuel + 1, first, b :: rest =>
    if b == byte ']' && !first then some ([], rest)
    else if b == byte '[' && rest.head? == some (byte ':') then
      let name := (rest.drop 1).takeWhile isAlphaByte
      match (rest.drop 1).dropWhile isAlphaByte with
      | _ :: _ :: rest =>
        (bracketMembers fuel false rest).map fun (members, rest) =>
          (namedClass (Bytes.text name) ++ members, rest)
      | _ => none
    else
      match rest with
      | dash :: hi :: after =>
        if dash == byte '-' && hi != byte ']' then
          (bracketMembers fuel false after).map fun (members, rest) => ((b, hi) :: members, rest)
        else (bracketMembers fuel false rest).map fun (members, rest) => ((b, b) :: members, rest)
      | rest => (bracketMembers fuel false rest).map fun (members, rest) => ((b, b) :: members, rest)

/-- Reads a bracket expression after its opening bracket. -/
def bracketSet (rest : Bytes) : Option (ByteSet × Bytes) :=
  let (negated, rest) := match rest with
    | b :: after => if b == byte '^' || b == byte '!' then (true, after) else (false, rest)
    | [] => (false, rest)
  (bracketMembers (rest.length + 1) true rest).map fun (members, rest) => (⟨negated, members⟩, rest)

/-! ## Patterns -/

inductive Glob where
  | one (set : ByteSet)
  | anything

/-- Reads a pattern from bytes that are quoted or not; a quoted byte stands for itself. -/
def readGlob : Nat → List (UInt8 × Bool) → List Glob
  | 0, _ => []
  | _, [] => []
  | fuel + 1, (b, quoted) :: rest =>
    if quoted then .one (.single b) :: readGlob fuel rest
    else if b == byte '*' then .anything :: readGlob fuel rest
    else if b == byte '?' then .one .all :: readGlob fuel rest
    else if b == byte '[' then
      match bracketSet (rest.map (·.1)) with
      | some (set, after) => .one set :: readGlob fuel (rest.drop (rest.length - after.length))
      | none => .one (.single b) :: readGlob fuel rest
    else .one (.single b) :: readGlob fuel rest

def Glob.matchAll : List Glob → Bytes → Bool
  | [], b => b.isEmpty
  | .one set :: pattern, b =>
    match b with
    | [] => false
    | x :: rest => set.holds x && matchAll pattern rest
  | .anything :: pattern, b => (List.range (b.length + 1)).any fun n => matchAll pattern (b.drop n)

/-- Removes a match at the start or the end of the value. -/
def Glob.strip (pattern : List Glob) (atEnd longest : Bool) (value : Bytes) : Bytes :=
  let cuts := (List.range (value.length + 1)).filter fun n =>
    Glob.matchAll pattern (if atEnd then value.drop n else value.take n)
  let best := if longest == atEnd then cuts.head? else cuts.getLast?
  match best with
  | none => value
  | some n => if atEnd then value.take n else value.drop n

/-! ## Regular expressions -/

inductive Regex where
  | nothing
  | set (s : ByteSet)
  | seq (first second : Regex)
  | alt (first second : Regex)
  | star (body : Regex)
  | lineStart
  | lineEnd
  | wordEdge
  /-- A part whose text is kept under a number. -/
  | group (number : Nat) (body : Regex)
  /-- The text that a group has. -/
  | same (number : Nat)

namespace Regex

/-- A position in a line: the byte before it, its number, the rest of the line, and the texts of the
groups on the way to it. -/
structure Position where
  before : Option UInt8
  index : Nat
  rest : Bytes
  groups : List (Nat × Bytes)

/-- The start of a text that stands after the given byte. -/
def Position.start (before : Option UInt8) (text : Bytes) : Position := ⟨before, 0, text, []⟩

/-- The position after some more bytes. -/
def Position.skip (p : Position) (count : Nat) : Position :=
  if count = 0 then p
  else { p with
    before := p.rest[count - 1]?
    index := p.index + count
    rest := p.rest.drop count }

/-- The first of the positions at each place. -/
def distinct (ps : List Position) : List Position :=
  (ps.foldl (fun seen p => if seen.any (·.index == p.index) then seen else p :: seen) []).reverse

/-- The positions reachable by repeating a step, those after more steps first. -/
def closure (step : Position → List Position) : Nat → List Position → List Position →
    List Position
  | 0, seen, _ => seen
  | fuel + 1, seen, frontier =>
    let new := distinct ((frontier.flatMap step).filter fun p => !seen.any (·.index == p.index))
    if new.isEmpty then seen else closure step fuel (new ++ seen) new

def foldCase (ignoreCase : Bool) (s : ByteSet) (b : UInt8) : Bool :=
  s.holds b || (ignoreCase && isAlphaByte b && s.holds (b ^^^ 32))

/-- The positions after a match that begins at `p`, the preferred ones first. -/
def ends (ignoreCase : Bool) : Regex → Position → List Position
  | nothing, p => [p]
  | set s, p =>
    match p.rest with
    | [] => []
    | b :: _ => if foldCase ignoreCase s b then [p.skip 1] else []
  | seq first second, p =>
    distinct ((ends ignoreCase first p).flatMap (ends ignoreCase second))
  | alt first second, p => distinct (ends ignoreCase first p ++ ends ignoreCase second p)
  | star body, p => closure (ends ignoreCase body) (p.rest.length + 1) [p] [p]
  | lineStart, p => if p.before.isNone then [p] else []
  | lineEnd, p => if p.rest.isEmpty then [p] else []
  | wordEdge, p =>
    if (p.before.any isWordByte) != (p.rest.head?.any isWordByte) then [p] else []
  | group number body, p =>
    (ends ignoreCase body p).map fun q =>
      { q with groups := (number, p.rest.take (q.index - p.index)) :: q.groups.filter (·.1 != number) }
  | same number, p =>
    match p.groups.lookup number with
    | some text => if text.isPrefixOf p.rest then [p.skip text.length] else []
    | none => []

/-- The first match from position `p` on, as its start and its longest end. -/
def findFrom (ignoreCase : Bool) (r : Regex) : Nat → Position → Option (Position × Position)
  | 0, _ => none
  | fuel + 1, p =>
    match r.ends ignoreCase p with
    | [] =>
      match p.rest with
      | [] => none
      | _ => findFrom ignoreCase r fuel (p.skip 1)
    | first :: others =>
      some (p, others.foldl (fun best q => if best.index < q.index then q else best) first)

def find (ignoreCase : Bool) (r : Regex) (line : Bytes) : Option (Position × Position) :=
  findFrom ignoreCase r (line.length + 1) (.start none line)

def isMatch (ignoreCase : Bool) (r : Regex) (line : Bytes) : Bool :=
  (r.find ignoreCase line).isSome

/-- The text itself. -/
def literal (b : Bytes) : Regex := b.foldr (fun x r => seq (set (.single x)) r) nothing

def repeated (r : Regex) : Nat → Regex
  | 0 => nothing
  | n + 1 => seq r (repeated r n)

/-- Up to `n` times. -/
def upTo (r : Regex) : Nat → Regex
  | 0 => nothing
  | n + 1 => alt (seq r (upTo r n)) nothing

/-- What an operator after an expression does to it. -/
inductive Repeat where
  | zeroOrMore
  | oneOrMore
  | zeroOrOne
  | between (lo : Nat) (hi : Option Nat)

def Repeat.apply (r : Regex) : Repeat → Regex
  | .zeroOrMore => star r
  | .oneOrMore => seq r (star r)
  | .zeroOrOne => alt r nothing
  | .between lo none => seq (repeated r lo) (star r)
  | .between lo (some hi) => seq (repeated r lo) (upTo r (hi - lo))

/-- Reads the bounds of a repetition up to its closing brace. -/
def readBounds (extended : Bool) (rest : Bytes) : Option (Repeat × Bytes) :=
  let close (r : Repeat) (rest : Bytes) : Option (Repeat × Bytes) :=
    match rest with
    | b :: after =>
      if extended then (if b == 0x7D then some (r, after) else none)
      else match after with
        | c :: after => if b == byte '\\' && c == 0x7D then some (r, after) else none
        | [] => none
    | [] => none
  match leadingNat rest with
  | none => none
  | some (lo, rest) =>
    match rest with
    | b :: after =>
      if b == byte ',' then
        match leadingNat after with
        | some (hi, rest) => close (.between lo (some hi)) rest
        | none => close (.between lo none) after
      else close (.between lo (some lo)) rest
    | [] => none

/-- Reads the operator at the front, if there is one. In the basic notation most operators have a
backslash before them, in the extended one they have none. -/
def readRepeat (extended : Bool) (rest : Bytes) : Option (Repeat × Bytes) :=
  let operator (b : UInt8) (after : Bytes) : Option (Repeat × Bytes) :=
    if b == byte '+' then some (.oneOrMore, after)
    else if b == byte '?' then some (.zeroOrOne, after)
    else if b == 0x7B then readBounds extended after
    else none
  match rest with
  | [] => none
  | b :: after =>
    if b == byte '*' then some (.zeroOrMore, after)
    else if extended then operator b after
    else if b == byte '\\' then
      match after with
      | c :: after => operator c after
      | [] => none
    else none

/-- Applies the operators at the front to an expression. -/
def readRepeats (extended : Bool) : Nat → Regex → Bytes → Regex × Bytes
  | 0, r, rest => (r, rest)
  | fuel + 1, r, rest =>
    match readRepeat extended rest with
    | some (op, rest) => readRepeats extended fuel (op.apply r) rest
    | none => (r, rest)

/-- The sign at the front: an opening or closing parenthesis or a bar. -/
def sign? (extended : Bool) (rest : Bytes) : Option (Char × Bytes) :=
  let known (b : UInt8) (after : Bytes) : Option (Char × Bytes) :=
    if b == byte '(' then some ('(', after)
    else if b == byte ')' then some (')', after)
    else if b == byte '|' then some ('|', after)
    else none
  match rest with
  | [] => none
  | b :: after =>
    if extended then known b after
    else if b == byte '\\' then
      match after with
      | c :: after => known c after
      | [] => none
    else none

/-- The class of bytes that a letter after a backslash stands for. -/
def escapedClass (c : UInt8) : Regex :=
  let wordRanges := namedClass "alnum" ++ [(byte '_', byte '_')]
  if c == byte 'w' then set ⟨false, wordRanges⟩
  else if c == byte 'W' then set ⟨true, wordRanges⟩
  else if c == byte 's' then set ⟨false, namedClass "space"⟩
  else if c == byte 'S' then set ⟨true, namedClass "space"⟩
  else if c == byte 'b' || c == byte '<' || c == byte '>' then wordEdge
  else if c == byte 'n' then set (.single newline)
  else if c == byte 't' then set (.single 9)
  else if byte '1' ≤ c && c ≤ byte '9' then same (c.toNat - '0'.toNat)
  else set (.single c)

mutual

/-- Reads one expression with its operators. -/
def readAtom (extended : Bool) : Nat → Bool → Bytes → Regex × Bytes
  | 0, _, rest => (nothing, rest)
  | _, _, [] => (nothing, [])
  | fuel + 1, first, b :: rest =>
    match sign? extended (b :: rest) with
    | some ('(', after) =>
      let (r, rest) := readAlternatives extended fuel after
      let rest := match sign? extended rest with
        | some (')', rest) => rest
        | _ => rest
      -- A group is known by the place of its parenthesis until all of them are numbered.
      readRepeats extended (rest.length + 1) (group after.length r) rest
    | _ =>
      if b == byte '^' && (first || extended) then (lineStart, rest)
      else if b == byte '$' && (rest.isEmpty || extended || (sign? extended rest).isSome) then
        (lineEnd, rest)
      else
        let (r, rest) :=
          if b == byte '.' then (set .all, rest)
          else if b == byte '[' then
            match bracketSet rest with
            | some (s, rest) => (set s, rest)
            | none => (set (.single b), rest)
          else if b == byte '\\' then
            match rest with
            | c :: rest => (escapedClass c, rest)
            | [] => (set (.single b), [])
          else (set (.single b), rest)
        readRepeats extended (rest.length + 1) r rest

/-- Reads expressions in sequence, up to a bar or a closing parenthesis. -/
def readSequence (extended : Bool) : Nat → Bool → Bytes → Regex × Bytes
  | 0, _, rest => (nothing, rest)
  | _, _, [] => (nothing, [])
  | fuel + 1, first, rest =>
    match sign? extended rest with
    | some (')', _) => (nothing, rest)
    | some ('|', _) => (nothing, rest)
    | _ =>
      let (r, rest) := readAtom extended fuel first rest
      let (others, rest) := readSequence extended fuel false rest
      (seq r others, rest)

/-- Reads alternatives between bars. -/
def readAlternatives (extended : Bool) : Nat → Bytes → Regex × Bytes
  | 0, rest => (nothing, rest)
  | fuel + 1, rest =>
    let (r, rest) := readSequence extended fuel true rest
    match sign? extended rest with
    | some ('|', rest) =>
      let (others, rest) := readAlternatives extended fuel rest
      (alt r others, rest)
    | _ => (r, rest)

end

/-- The numbers of the groups. -/
def groupNumbers : Regex → List Nat
  | seq first second | alt first second => groupNumbers first ++ groupNumbers second
  | star body => groupNumbers body
  | group number body => number :: groupNumbers body
  | _ => []

def renumber (f : Nat → Nat) : Regex → Regex
  | seq first second => seq (renumber f first) (renumber f second)
  | alt first second => alt (renumber f first) (renumber f second)
  | star body => star (renumber f body)
  | group number body => group (f number) (renumber f body)
  | r => r

/-- Reads a regular expression in the basic or the extended notation. Groups are numbered from one on
in the order of their opening parentheses. -/
def read (extended : Bool) (source : Bytes) : Regex :=
  let r := (readAlternatives extended (3 * source.length + 3) source).1
  let places := r.groupNumbers.eraseDups.mergeSort fun a b => a ≥ b
  r.renumber fun place => places.idxOf place + 1

end Regex

end LoopTuner.Shell
