import LoopTuner.Shell.Pattern
import LoopTuner.Shell.Tool

/-!
The stream editor: each line passes through the instructions that select it.
-/

namespace LoopTuner.Shell.Edit

inductive Address where
  | line (n : Nat)
  | last
  | match (r : Regex)

/-- A piece of a replacement: a byte, or the text of a group, the whole match being group zero. -/
inductive Piece where
  | byte (b : UInt8)
  | group (number : Nat)

inductive Action where
  | delete
  | print
  | quit
  | lineNumber
  | substitute (r : Regex) (replacement : List Piece) (nth : Nat) (all print ignore : Bool)
  | transliterate (source target : Bytes)

/-- An instruction with the addresses that select its lines. -/
structure Instruction where
  first : Option Address
  second : Option Address
  negated : Bool
  action : Action

/-- Splits at the first delimiter that has no backslash before it. -/
def upTo (delimiter : UInt8) : Bytes → Option (Bytes × Bytes)
  | [] => none
  | b :: rest =>
    if b == delimiter then some ([], rest)
    else if b == byte '\\' then
      match rest with
      | c :: rest =>
        (upTo delimiter rest).map fun (body, rest) =>
          (if c == delimiter then c :: body else b :: c :: body, rest)
      | [] => none
    else (upTo delimiter rest).map fun (body, rest) => (b :: body, rest)

/-- The pieces of a replacement; an ampersand stands for the match. -/
def readReplacement : Bytes → List Piece
  | [] => []
  | b :: rest =>
    if b == byte '\\' then
      match rest with
      | c :: rest =>
        (if isDigitByte c then .group (c.toNat - '0'.toNat)
        else .byte (if c == byte 'n' then newline else if c == byte 't' then 9 else c)) ::
          readReplacement rest
      | [] => [.byte b]
    else if b == byte '&' then .group 0 :: readReplacement rest
    else .byte b :: readReplacement rest

def readAddress (extended : Bool) (rest : Bytes) : Option Address × Bytes :=
  match leadingNat rest with
  | some (n, rest) => (some (.line n), rest)
  | none =>
    match rest with
    | b :: after =>
      if b == byte '$' then (some .last, after)
      else if b == byte '/' then
        match upTo b after with
        | some (source, rest) => (some (.match (.read extended source)), rest)
        | none => (none, rest)
      else (none, rest)
    | [] => (none, [])

def isBreak (b : UInt8) : Bool := b == byte ';' || isBlankByte b || b == 0x7D || b == 0x7B

/-- Reads the action of an instruction. -/
def readAction (extended : Bool) (rest : Bytes) : Option (Action × Bytes) :=
  match rest with
  | [] => none
  | b :: rest =>
    if b == byte 'd' then some (.delete, rest)
    else if b == byte 'p' then some (.print, rest)
    else if b == byte 'q' then some (.quit, rest)
    else if b == byte '=' then some (.lineNumber, rest)
    else if b == byte 's' then
      match rest with
      | [] => none
      | delimiter :: rest =>
        match upTo delimiter rest with
        | none => none
        | some (source, rest) =>
          match upTo delimiter rest with
          | none => none
          | some (replacement, rest) =>
            let flags := rest.takeWhile fun b => !isBreak b
            let nth := (leadingNat (flags.dropWhile fun b => !isDigitByte b)).map (·.1)
            some (.substitute (.read extended source) (readReplacement replacement) (nth.getD 1)
              (flags.contains (byte 'g')) (flags.contains (byte 'p'))
              (flags.contains (byte 'i') || flags.contains (byte 'I')),
              rest.drop flags.length)
    else if b == byte 'y' then
      match rest with
      | [] => none
      | delimiter :: rest =>
        match upTo delimiter rest with
        | none => none
        | some (source, rest) =>
          (upTo delimiter rest).map fun (target, rest) => (.transliterate source target, rest)
    else none

def readInstructions (extended : Bool) : Nat → Bytes → Option (List Instruction)
  | 0, _ => none
  | fuel + 1, rest =>
    match rest.dropWhile isBreak with
    | [] => some []
    | rest =>
      let (first, rest) := readAddress extended rest
      let (second, rest) := match first, rest with
        | some _, b :: after => if b == byte ',' then readAddress extended after else (none, rest)
        | _, _ => (none, rest)
      let rest := rest.dropWhile isBlankByte
      let (negated, rest) := match rest with
        | b :: after => if b == byte '!' then (true, after) else (false, rest)
        | [] => (false, [])
      match readAction extended (rest.dropWhile isBlankByte) with
      | none => none
      | some (action, rest) =>
        (readInstructions extended fuel rest).map (⟨first, second, negated, action⟩ :: ·)

def Address.selects (number : Nat) (isLast : Bool) (text : Bytes) : Address → Bool
  | line n => n == number
  | last => isLast
  | .match r => r.isMatch false text

/-- Whether an instruction selects a line, and whether its range goes on after the line. -/
def Instruction.selects (i : Instruction) (inRange : Bool) (number : Nat) (isLast : Bool)
    (text : Bytes) : Bool × Bool :=
  let hit (a : Address) : Bool := a.selects number isLast text
  let (chosen, goesOn) := match i.first, i.second with
    | none, _ => (true, false)
    | some a, none => (hit a, false)
    | some a, some b =>
      if inRange then (true, !hit b)
      else if hit a then
        (true, match b with
          | .line n => number < n
          | .last => !isLast
          | .match _ => true)
      else (false, false)
  (chosen != i.negated, goesOn)

/-- Replaces matches from the given count on; the flag tells whether any was replaced. -/
def substitute (r : Regex) (ignore : Bool) (replacement : List Piece) (nth : Nat)
    (all : Bool) : Nat → Nat → Option UInt8 → Bytes → Bytes × Bool
  | 0, _, _, text => (text, false)
  | fuel + 1, count, before, text =>
    match r.findFrom ignore (text.length + 1) (.start before text) with
    | none => (text, false)
    | some (p, q) =>
      let lead := text.take p.index
      let found := p.rest.take (q.index - p.index)
      let replaced := nth ≤ count && (all || count == nth)
      let body := if replaced then replacement.flatMap fun piece => match piece with
          | .byte b => [b]
          | .group 0 => found
          | .group n => (q.groups.lookup n).getD []
        else found
      if replaced && !all then (lead ++ body ++ q.rest, true)
      else
        let (skipped, before, rest) := if q.index = p.index then
            match q.rest with
            | b :: rest => ([b], some b, rest)
            | [] => ([], q.before, [])
          else ([], q.before, q.rest)
        if rest.isEmpty && (q.index != p.index || skipped.isEmpty) then
          (lead ++ body ++ skipped, replaced)
        else
          let (others, again) := substitute r ignore replacement nth all fuel (count + 1) before rest
          (lead ++ body ++ skipped ++ others, replaced || again)

/-- A line on its way through the instructions. -/
structure Passage where
  text : Bytes
  output : Bytes
  deleted : Bool
  quit : Bool

def Passage.perform (p : Passage) (number : Nat) : Action → Passage
  | .delete => { p with deleted := true }
  | .print => { p with output := p.output ++ p.text ++ [newline] }
  | .quit => { p with quit := true }
  | .lineNumber => { p with output := p.output ++ bytesOf (toString number ++ "\n") }
  | .substitute r replacement nth all print ignore =>
    let (text, changed) := substitute r ignore replacement nth all (p.text.length + 2) 1 none p.text
    { p with
      text := text
      output := if changed && print then p.output ++ text ++ [newline] else p.output }
  | .transliterate source target =>
    { p with text := p.text.map fun b => (((source.zip target).find? (·.1 == b)).map (·.2)).getD b }

/-- Passes a line through the instructions; the flags tell whose ranges go on. -/
def passLine (number : Nat) (isLast : Bool) : List (Instruction × Bool) → Passage →
    Passage × List (Instruction × Bool)
  | [], p => (p, [])
  | (i, inRange) :: rest, p =>
    if p.deleted || p.quit then (p, (i, inRange) :: rest)
    else
      let (chosen, goesOn) := i.selects inRange number isLast p.text
      let p := if chosen then p.perform number i.action else p
      let (p, others) := passLine number isLast rest p
      (p, (i, goesOn) :: others)

def passLines (silent terminated : Bool) : Nat → List (Instruction × Bool) → List Bytes → Bytes
  | _, _, [] => []
  | number, instructions, text :: rest =>
    let (p, instructions) := passLine number rest.isEmpty instructions ⟨text, [], false, false⟩
    let lineEnd := if rest.isEmpty && !terminated then [] else [newline]
    let own := p.output ++ if silent || p.deleted then [] else p.text ++ lineEnd
    if p.quit then own else own ++ passLines silent terminated (number + 1) instructions rest

def sed (j : Job) : Result :=
  j.withOptions "nErsu" "e" 1 fun o =>
    let extended := o.has 'E' || o.has 'r'
    let (script, files) := match o.values 'e', o.operands with
      | [], [] => (none, [])
      | [], s :: files => (some s, files)
      | scripts, files => (some (List.intercalate [newline] scripts), files)
    match script with
    | none => j.complain 1 "no script specified"
    | some script =>
      match readInstructions extended (script.length + 1) script with
      | none => j.complain 1 "-e expression #1, char 1: unknown command"
      | some instructions =>
        let input := j.gather files
        let body := passLines (o.has 'n') (input.getLast? == some newline) 1
          (instructions.map (·, false)) (linesOf input)
        { j.mapFiles files (fun _ _ => []) with output := body }

end LoopTuner.Shell.Edit
