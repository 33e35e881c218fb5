import LoopTuner.Shell.Script

/-!
Reading scripts. A script is read line by line; what stands before a malformed line is run before the
line is reported. The fuel bounds the nesting and the number of tokens, and the length of the script
is always enough.
-/

namespace LoopTuner.Shell

abbrev Reading (α : Type) := List Char → Except Misread (α × List Char)

def isMeta (c : Char) : Bool := " \t\n;&|<>()".toList.contains c

def isNameStart (c : Char) : Bool := c.isAlpha || c == '_'

def isNameChar (c : Char) : Bool := c.isAlphanum || c == '_'

def fail {α : Type} (fault : ScriptFault) (rest : List Char) : Except Misread (α × List Char) :=
  .error ⟨fault, rest.length⟩

/-- Skips blanks, continued lines and comments. -/
def skipBlanks : List Char → List Char
  | ' ' :: rest => skipBlanks rest
  | '\t' :: rest => skipBlanks rest
  | '\\' :: '\n' :: rest => skipBlanks rest
  | '#' :: rest => rest.dropWhile (· != '\n')
  | rest => rest

/-- Skips blanks, comments and line ends. -/
def skipLines : Nat → List Char → List Char
  | 0, rest => rest
  | fuel + 1, rest =>
    match skipBlanks rest with
    | '\n' :: rest => skipLines fuel rest
    | rest => rest

/-- The text up to a closing backquote, with its escapes undone. -/
def backquoted : List Char → Option (List Char × List Char)
  | [] => none
  | '`' :: rest => some ([], rest)
  | '\\' :: c :: rest =>
    (backquoted rest).map fun (body, rest) =>
      (if c == '`' || c == '\\' || c == '$' then c :: body else '\\' :: c :: body, rest)
  | c :: rest => (backquoted rest).map fun (body, rest) => (c :: body, rest)

/-- The text of an arithmetic expression, up to its two closing parentheses. -/
def arithmeticText : Nat → List Char → Option (List Char × List Char)
  | _, [] => none
  | 0, ')' :: ')' :: rest => some ([], rest)
  | depth + 1, ')' :: rest =>
    (arithmeticText depth rest).map fun (body, rest) => (')' :: body, rest)
  | depth, c :: rest =>
    (arithmeticText (if c == '(' then depth + 1 else depth) rest).map
      fun (body, rest) => (c :: body, rest)

/-- The treatment that a braced parameter asks for. -/
def readTreatment (rest : List Char) : Option (Treatment × List Char) :=
  match rest with
  | '%' :: '%' :: rest => some (.strip true true, rest)
  | '%' :: rest => some (.strip true false, rest)
  | '#' :: '#' :: rest => some (.strip false true, rest)
  | '#' :: rest => some (.strip false false, rest)
  | ':' :: '-' :: rest => some (.orElse true, rest)
  | ':' :: '=' :: rest => some (.orAssign true, rest)
  | ':' :: '?' :: rest => some (.orFail true, rest)
  | ':' :: '+' :: rest => some (.andThen true, rest)
  | '-' :: rest => some (.orElse false, rest)
  | '=' :: rest => some (.orAssign false, rest)
  | '?' :: rest => some (.orFail false, rest)
  | '+' :: rest => some (.andThen false, rest)
  | _ => none

/-- The name of a parameter and what follows it. -/
def parameterName (rest : List Char) : Option (String × List Char) :=
  match rest with
  | [] => none
  | c :: after =>
    if isNameStart c then
      some (String.ofList (rest.takeWhile isNameChar), rest.dropWhile isNameChar)
    else if c.isDigit || "?$#@*!-".toList.contains c then some (String.ofList [c], after)
    else none

/-- Where the reading of parts ends. -/
inductive Ending where
  | word
  | doubleQuote
  | brace
  | text
  deriving DecidableEq

def Ending.holds (e : Ending) (c : Char) : Bool :=
  match e with
  | word => isMeta c
  | doubleQuote => c == '"'
  | brace => c == '\x7d'
  | text => false

/-- Words that have a meaning of their own at the start of a command. -/
def closingWords : List String :=
  ["then", "else", "elif", "fi", "do", "done", "esac", "\x7d"]

/-- The word of plain characters at the front, if the text begins with one. -/
def plainWord (rest : List Char) : String :=
  String.ofList (rest.takeWhile fun c => !isMeta c)

def quoteToken (token : String) : String := "\"" ++ token ++ "\""

/-- The token at the front, as it is named in faults. -/
def nextToken (rest : List Char) : String :=
  match rest with
  | [] => "end of file"
  | '\n' :: _ => "newline"
  | ';' :: ';' :: _ => quoteToken ";;"
  | '&' :: '&' :: _ => quoteToken "&&"
  | '|' :: '|' :: _ => quoteToken "||"
  | '<' :: _ => "redirection"
  | '>' :: _ => "redirection"
  | c :: _ =>
    if isMeta c then quoteToken (String.ofList [c])
    else if closingWords.contains (plainWord rest) then quoteToken (plainWord rest)
    else "word"

def unexpected {α : Type} (rest : List Char) (expected : Option String) :
    Except Misread (α × List Char) :=
  fail (.unexpected (nextToken rest) expected) rest

/-- Drops the given word at the front, which has to be there. -/
def expectWord (word : String) (rest : List Char) : Except Misread (Unit × List Char) :=
  if plainWord rest = word then .ok ((), rest.drop word.length)
  else unexpected rest (some (quoteToken word))

def expectClose (rest : List Char) : Except Misread (Unit × List Char) :=
  match rest with
  | ')' :: rest => .ok ((), rest)
  | _ => unexpected rest (some (quoteToken ")"))

/-- The stream that a redirection changes if none is named. -/
def defaultStream : Char → Nat
  | '<' => 0
  | _ => 1

/-- The number of a stream before a redirection sign, if the text begins with a redirection. -/
def redirectionStart (rest : List Char) : Option (Nat × List Char) :=
  let digits := rest.takeWhile Char.isDigit
  match rest.dropWhile Char.isDigit with
  | '<' :: after => some ((String.ofList digits).toNat?.getD 0, '<' :: after)
  | '>' :: after => some ((String.ofList digits).toNat?.getD 1, '>' :: after)
  | _ => none

/-- The name of an assignment at the front. -/
def assignmentName (rest : List Char) : Option (String × List Char) :=
  match rest with
  | c :: _ =>
    if isNameStart c then
      match rest.dropWhile isNameChar with
      | '=' :: after => some (String.ofList (rest.takeWhile isNameChar), after)
      | _ => none
    else none
  | [] => none

/-- The literal characters of parts. -/
def plainChars (parts : List Part) : List Char :=
  parts.flatMap fun
    | .text _ chars => chars
    | _ => []

/-- The lines up to one that is the mark, and what follows it. -/
def documentLines (stripsTabs : Bool) (mark : List Char) : Nat → List Char →
    List Char × List Char
  | 0, rest => ([], rest)
  | _, [] => ([], [])
  | fuel + 1, rest =>
    let line := rest.takeWhile (· != '\n')
    let after := (rest.dropWhile (· != '\n')).drop 1
    let line := if stripsTabs then line.dropWhile (· == '\t') else line
    if line = mark then ([], after)
    else
      let (body, after) := documentLines stripsTabs mark fuel after
      (line ++ '\n' :: body, after)

/-- Takes the document out of a script that begins on its next line. -/
def splitDocument (stripsTabs : Bool) (mark rest : List Char) : List Char × List Char :=
  let line := rest.takeWhile (· != '\n')
  match rest.dropWhile (· != '\n') with
  | [] => ([], line)
  | _ :: after =>
    let (body, after) := documentLines stripsTabs mark (after.length + 1) after
    (body, line ++ '\n' :: after)

mutual

/-- Reads parts up to the given ending, which is not consumed. -/
def readParts : Nat → Ending → Reading (List Part)
  | 0, _, rest => .ok ([], rest)
  | fuel + 1, ending, rest => do
    let quoted := ending != .word && ending != .brace
    match rest with
    | [] => return ([], [])
    | c :: after =>
      if ending.holds c then return ([], rest)
      let (first, rest) ← (match c, after with
        | '\'', after =>
          if quoted then .ok ([Part.text true ['\'']], after)
          else
            match after.dropWhile (· != '\'') with
            | [] => fail .openQuote []
            | _ :: rest => .ok ([Part.text true (after.takeWhile (· != '\''))], rest)
        | '"', after =>
          if ending == .text then .ok ([Part.text true ['"']], after)
          else do
            let (parts, rest) ← readParts fuel .doubleQuote after
            match rest with
            | [] => fail .openQuote []
            | _ :: rest =>
              match parts with
              | [.parameter _ "@" .plain _] => .ok (parts, rest)
              | parts => .ok (Part.text true [] :: parts, rest)
        | '\\', '\n' :: after => .ok ([], after)
        | '\\', c :: after =>
          if quoted && !("$`\"\\".toList.contains c) then
            .ok ([Part.text true ['\\', c]], after)
          else .ok ([Part.text true [c]], after)
        | '`', after =>
          match backquoted after with
          | none => fail .openBackquote []
          | some (body, rest) => do
            let (commands, _) ← readList fuel body
            .ok ([Part.output quoted commands], rest)
        | '$', after => readDollar fuel quoted after
        | c, after => .ok ([Part.text quoted [c]], after)
        : Except Misread (List Part × List Char))
      let (others, rest) ← readParts fuel ending rest
      return (first ++ others, rest)

/-- Reads an expansion after its dollar sign. -/
def readDollar : Nat → Bool → Reading (List Part)
  | 0, _, rest => .ok ([], rest)
  | fuel + 1, quoted, rest => do
    match rest with
    | '(' :: '(' :: rest =>
      match arithmeticText 0 rest with
      | none => fail .openArithmetic []
      | some (body, rest) =>
        let (parts, _) ← readParts fuel .text body
        return ([.arithmetic quoted parts], rest)
    | '(' :: rest =>
      let (commands, rest) ← readList fuel rest
      let ((), rest) ← expectClose rest
      return ([.output quoted commands], rest)
    | '\x7b' :: rest =>
      let (size, rest) := match rest with
        | '#' :: after => if (parameterName after).isSome then (true, after) else (false, rest)
        | rest => (false, rest)
      let (name, rest) := (parameterName rest).getD ("", rest)
      let (treatment, rest) := match rest with
        | '\x7d' :: _ =>
          (if name.isEmpty then .unknown else if size then .length else .plain, rest)
        | rest =>
          match readTreatment rest with
          | some (treatment, rest) =>
            (if name.isEmpty || size then .unknown else treatment, rest)
          | none => (.unknown, rest)
      let (argument, rest) ← readParts fuel .brace rest
      match rest with
      | '\x7d' :: rest => return ([.parameter quoted name treatment argument], rest)
      | rest => fail .openBrace rest
    | rest =>
      match parameterName rest with
      | some (name, rest) => return ([.parameter quoted name .plain []], rest)
      | none => return ([.text quoted ['$']], rest)

/-- Reads a redirection, whose stream is already known. -/
def readRedirection : Nat → Nat → Reading Redirection
  | 0, _, rest => unexpected rest none
  | fuel + 1, stream, rest => do
    let file (rest : List Char) : Except Misread (List Part × List Char) := do
      match ← readParts fuel .word (skipBlanks rest) with
      | ([], rest) => unexpected rest none
      | found => .ok found
    match rest with
    | '<' :: '<' :: rest =>
      let (stripsTabs, rest) := match rest with
        | '-' :: rest => (true, rest)
        | rest => (false, rest)
      let rest := skipBlanks rest
      let (mark, after) ← file rest
      let isQuoted := (rest.take (rest.length - after.length)).any "'\"\\".toList.contains
      let (body, after) := splitDocument stripsTabs (plainChars mark) after
      if isQuoted then return (.mk stream (.document [.text true body]), after)
      let (text, _) ← readParts fuel .text body
      return (.mk stream (.document text), after)
    | '<' :: '&' :: rest | '>' :: '&' :: rest =>
      let (source, rest) ← file rest
      return (.mk stream (.duplicate source), rest)
    | '>' :: '>' :: rest =>
      let (name, rest) ← file rest
      return (.mk stream (.output true name), rest)
    | '>' :: '|' :: rest | '<' :: '>' :: rest =>
      let (name, rest) ← file rest
      return (.mk stream (.output false name), rest)
    | '>' :: rest =>
      let (name, rest) ← file rest
      return (.mk stream (.output false name), rest)
    | '<' :: rest =>
      let (name, rest) ← file rest
      return (.mk stream (.input name), rest)
    | rest => unexpected rest none

/-- Reads the redirections after a compound command. -/
def readRedirections : Nat → Reading (List Redirection)
  | 0, rest => .ok ([], rest)
  | fuel + 1, rest => do
    let rest := skipBlanks rest
    match redirectionStart rest with
    | none => return ([], rest)
    | some (stream, rest) =>
      let (first, rest) ← readRedirection fuel stream rest
      let (others, rest) ← readRedirections fuel rest
      return (first :: others, rest)

/-- Reads the assignments, words and redirections of a simple command. -/
def readSimple : Nat → Nat → Reading Command
  | 0, _, rest => unexpected rest none
  | fuel + 1, words, rest => do
    let rest := skipBlanks rest
    let extend (rest : List Char) (assignments : List (String × List Part))
        (read : List (List Part)) (redirections : List Redirection) :
        Except Misread (Command × List Char) := do
      match ← readSimple fuel (words + read.length) rest with
      | (.simple line a w r, rest) =>
        .ok (.simple line (assignments ++ a) (read ++ w) (redirections ++ r), rest)
      | other => .ok other
    match redirectionStart rest with
    | some (stream, rest) =>
      let (redirection, rest) ← readRedirection fuel stream rest
      extend rest [] [] [redirection]
    | none =>
      match (if words = 0 then assignmentName rest else none) with
      | some (name, rest) =>
        let (value, rest) ← readParts fuel .word rest
        extend rest [(name, value)] [] []
      | none =>
        match rest with
        | [] => return (.simple rest.length [] [] [], rest)
        | c :: _ =>
          if isMeta c then return (.simple rest.length [] [] [], rest)
          else
            let (word, rest) ← readParts fuel .word rest
            extend rest [] [word] []

/-- Reads the words of a `for` up to the end of its line. -/
def readWords : Nat → Reading (List (List Part))
  | 0, rest => .ok ([], rest)
  | fuel + 1, rest => do
    let rest := skipBlanks rest
    match rest with
    | [] => return ([], rest)
    | c :: _ =>
      if isMeta c then return ([], rest)
      let (word, rest) ← readParts fuel .word rest
      let (others, rest) ← readWords fuel rest
      return (word :: others, rest)

/-- Reads the part of a conditional after its `if` or `elif`. -/
def readChoice : Nat → Reading (List Command × List Command × List Command)
  | 0, rest => unexpected rest none
  | fuel + 1, rest => do
    let (condition, rest) ← readBlock fuel "then" rest
    let ((), rest) ← expectWord "then" rest
    let (body, rest) ← readBlock fuel "fi" rest
    if plainWord rest = "elif" then
      let ((condition', body', otherwise'), rest) ← readChoice fuel (rest.drop 4)
      return ((condition, body, [.choice condition' body' otherwise' []]), rest)
    else if plainWord rest = "else" then
      let (otherwise, rest) ← readBlock fuel "fi" (rest.drop 4)
      let ((), rest) ← expectWord "fi" rest
      return ((condition, body, otherwise), rest)
    else
      let ((), rest) ← expectWord "fi" rest
      return ((condition, body, []), rest)

/-- Reads a list that may not be empty, before the given closing word. -/
def readBlock : Nat → String → Reading (List Command)
  | 0, _, rest => unexpected rest none
  | fuel + 1, closing, rest => do
    match ← readList fuel rest with
    | ([], []) => unexpected [] (some (quoteToken closing))
    | ([], rest) => unexpected rest none
    | found => return found

/-- Reads the patterns of a clause, up to the closing parenthesis. -/
def readPatterns : Nat → Reading (List (List Part))
  | 0, rest => unexpected rest none
  | fuel + 1, rest => do
    let (pattern, rest) ← readParts fuel .word (skipBlanks rest)
    match skipBlanks rest with
    | '|' :: rest =>
      let (others, rest) ← readPatterns fuel rest
      return (pattern :: others, rest)
    | ')' :: rest => return ([pattern], rest)
    | rest => unexpected rest (some (quoteToken ")"))

/-- Reads the clauses of a `case`, up to its `esac`. -/
def readClauses : Nat → Reading (List (List (List Part) × List Command))
  | 0, rest => unexpected rest none
  | fuel + 1, rest => do
    let rest := skipLines rest.length.succ rest
    if plainWord rest = "esac" then return ([], rest.drop 4)
    let rest := match rest with
      | '(' :: rest => rest
      | rest => rest
    let (patterns, rest) ← readPatterns fuel rest
    let (body, rest) ← readList fuel rest
    match skipLines rest.length.succ rest with
    | ';' :: ';' :: rest =>
      let (others, rest) ← readClauses fuel rest
      return ((patterns, body) :: others, rest)
    | rest =>
      if plainWord rest = "esac" then return ([(patterns, body)], rest.drop 4)
      else unexpected rest (some (quoteToken ";;"))

/-- Reads one command of a pipeline. -/
def readCommand : Nat → Reading Command
  | 0, rest => unexpected rest none
  | fuel + 1, rest => do
    let rest := skipBlanks rest
    let word := plainWord rest
    let after := rest.drop word.length
    let loop (whileFails : Bool) : Except Misread (Command × List Char) := do
      let (condition, rest) ← readBlock fuel "do" after
      let ((), rest) ← expectWord "do" rest
      let (body, rest) ← readBlock fuel "done" rest
      let ((), rest) ← expectWord "done" rest
      let (redirections, rest) ← readRedirections fuel rest
      .ok (.loop whileFails condition body redirections, rest)
    match rest with
    | '(' :: rest =>
      let (body, rest) ← readBlock fuel ")" rest
      let ((), rest) ← expectClose rest
      let (redirections, rest) ← readRedirections fuel rest
      return (.subshell body redirections, rest)
    | rest =>
      if word = "\x7b" then
        let (body, rest) ← readBlock fuel "\x7d" after
        let ((), rest) ← expectWord "\x7d" rest
        let (redirections, rest) ← readRedirections fuel rest
        return (.group body redirections, rest)
      else if word = "if" then
        let ((condition, body, otherwise), rest) ← readChoice fuel after
        let (redirections, rest) ← readRedirections fuel rest
        return (.choice condition body otherwise redirections, rest)
      else if word = "while" then loop false
      else if word = "until" then loop true
      else if word = "for" then
        let name := plainWord (skipBlanks after)
        if !(name.toList.all isNameChar && (name.toList.head?.any isNameStart)) then
          fail .badLoopVariable after
        else
          let rest := skipLines after.length ((skipBlanks after).drop name.length)
          let (words, rest) ← (if plainWord rest = "in" then do
              let (words, rest) ← readWords fuel (rest.drop 2)
              .ok (some words, rest)
            else .ok (none, rest) : Except Misread (Option (List (List Part)) × List Char))
          let rest := match skipBlanks rest with
            | ';' :: rest => rest
            | rest => rest
          let ((), rest) ← expectWord "do" (skipLines after.length rest)
          let (body, rest) ← readBlock fuel "done" rest
          let ((), rest) ← expectWord "done" rest
          let (redirections, rest) ← readRedirections fuel rest
          return (.forEach name words body redirections, rest)
      else if word = "case" then
        let (subject, rest) ← readParts fuel .word (skipBlanks after)
        let ((), rest) ← expectWord "in" (skipLines after.length rest)
        let (clauses, rest) ← readClauses fuel rest
        let (redirections, rest) ← readRedirections fuel rest
        return (.cases subject clauses redirections, rest)
      else if closingWords.contains word then unexpected rest none
      else
        let isPlain := !word.toList.any "$\"'\\`=".toList.contains && !word.isEmpty
        match (if isPlain then skipBlanks after else []) with
        | '(' :: more =>
          let ((), rest) ← expectClose (skipBlanks more)
          if word.toList.head?.any isNameStart && word.toList.all isNameChar then
            let (body, rest) ← readCommand fuel (skipLines rest.length rest)
            return (.function word body, rest)
          else fail .badFunctionName rest
        | _ =>
          let line := rest.length
          match ← readSimple fuel 0 rest with
          | (.simple _ [] [] [], rest) => unexpected rest none
          | (.simple _ a w r, rest) => return (.simple line a w r, rest)
          | found => return found

/-- Reads the commands of a pipeline. -/
def readStages : Nat → Reading (List Command)
  | 0, rest => unexpected rest none
  | fuel + 1, rest => do
    let (first, rest) ← readCommand fuel rest
    match skipBlanks rest with
    | '|' :: '|' :: rest => return ([first], '|' :: '|' :: rest)
    | '|' :: rest =>
      let (others, rest) ← readStages fuel (skipLines rest.length rest)
      return (first :: others, rest)
    | rest => return ([first], rest)

/-- Reads a pipeline. -/
def readPipeline : Nat → Reading Command
  | 0, rest => unexpected rest none
  | fuel + 1, rest => do
    let rest := skipBlanks rest
    if plainWord rest = "!" then
      let (stages, rest) ← readStages fuel (rest.drop 1)
      return (.pipeline true stages, rest)
    match ← readStages fuel rest with
    | ([only], rest) => return (only, rest)
    | (stages, rest) => return (.pipeline false stages, rest)

/-- Reads the rest of a chain of conditions after its first pipelines. -/
def readChain : Nat → Command → Reading Command
  | 0, _, rest => unexpected rest none
  | fuel + 1, first, rest => do
    match skipBlanks rest with
    | '&' :: '&' :: rest =>
      let (second, rest) ← readPipeline fuel (skipLines rest.length rest)
      readChain fuel (.both first second) rest
    | '|' :: '|' :: rest =>
      let (second, rest) ← readPipeline fuel (skipLines rest.length rest)
      readChain fuel (.either first second) rest
    | rest => return (first, rest)

/-- Reads the commands of one line, and the line end. -/
def readLine : Nat → Reading (List Command)
  | 0, rest => unexpected rest none
  | fuel + 1, rest => do
    let (first, rest) ← readPipeline fuel rest
    let (chain, rest) ← readChain fuel first rest
    let next (command : Command) (rest : List Char) : Except Misread (List Command × List Char) := do
      match skipBlanks rest with
      | [] => .ok ([command], [])
      | '\n' :: rest => .ok ([command], '\n' :: rest)
      | ')' :: rest => .ok ([command], ')' :: rest)
      | ';' :: rest => .ok ([command], ';' :: rest)
      | rest =>
        if closingWords.contains (plainWord rest) then .ok ([command], rest)
        else do
          let (others, rest) ← readLine fuel rest
          .ok (command :: others, rest)
    match rest with
    | ';' :: ';' :: _ => return ([chain], rest)
    | ';' :: rest => next chain rest
    | '&' :: rest => next (.background chain) rest
    | [] => return ([chain], rest)
    | '\n' :: _ => return ([chain], rest)
    | ')' :: _ => return ([chain], rest)
    | rest => unexpected rest none

/-- Reads lines up to a closing word, a closing parenthesis or the end. -/
def readList : Nat → Reading (List Command)
  | 0, rest => unexpected rest none
  | fuel + 1, rest => do
    let rest := skipLines rest.length.succ rest
    match rest with
    | [] => return ([], [])
    | ')' :: _ => return ([], rest)
    | ';' :: ';' :: _ => return ([], rest)
    | rest =>
      if closingWords.contains (plainWord rest) then return ([], rest)
      let (line, rest) ← readLine fuel rest
      let (others, rest) ← readList fuel rest
      return (line ++ others, rest)

end

/-- The lines of a script that can be read, and the fault of the first one that cannot. -/
def readScript : Nat → List Char → List Command × Option Misread
  | 0, _ => ([], none)
  | fuel + 1, rest =>
    match skipLines rest.length.succ rest with
    | [] => ([], none)
    | rest =>
      match readLine (8 * rest.length + 32) rest with
      | .error misread => ([], some misread)
      | .ok (line, rest) =>
        match skipBlanks rest with
        | [] => (line, none)
        | '\n' :: rest =>
          let (others, fault) := readScript fuel rest
          (line ++ others, fault)
        | rest => ([], some ⟨.unexpected (nextToken rest) none, rest.length⟩)

end LoopTuner.Shell
