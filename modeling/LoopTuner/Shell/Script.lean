/-!
Scripts of the command language, as they are read. A word is a row of parts, and the values of its
parts are found when the word is expanded.
-/

namespace LoopTuner.Shell

/-- What an expansion does with the value of a parameter. -/
inductive Treatment where
  | plain
  | length
  /-- Another value if the parameter is unset, or also if it is empty. -/
  | orElse (emptyToo : Bool)
  /-- The same, and the parameter takes that value. -/
  | orAssign (emptyToo : Bool)
  /-- An error if the parameter is unset, or also if it is empty. -/
  | orFail (emptyToo : Bool)
  /-- Another value unless the parameter is unset, or also if it is empty. -/
  | andThen (emptyToo : Bool)
  /-- The value without the shortest or longest match at its start or end. -/
  | strip (atEnd longest : Bool)
  /-- One that there is not, which is an error only when it is expanded. -/
  | unknown
  deriving DecidableEq, Repr

mutual

/-- A part of a word. Quoted parts are not split into fields. -/
inductive Part where
  | text (quoted : Bool) (chars : List Char)
  | parameter (quoted : Bool) (name : String) (treatment : Treatment) (argument : List Part)
  | output (quoted : Bool) (body : List Command)
  | arithmetic (quoted : Bool) (expression : List Part)

/-- Where a redirected stream leads. -/
inductive Target where
  | input (file : List Part)
  | output (append : Bool) (file : List Part)
  | duplicate (source : List Part)
  /-- Input that stands in the script. -/
  | document (text : List Part)

inductive Redirection where
  | mk (stream : Nat) (target : Target)

inductive Command where
  | simple (line : Nat) (assignments : List (String × List Part)) (words : List (List Part))
      (redirections : List Redirection)
  | pipeline (negated : Bool) (stages : List Command)
  | both (first second : Command)
  | either (first second : Command)
  | background (body : Command)
  | group (body : List Command) (redirections : List Redirection)
  | subshell (body : List Command) (redirections : List Redirection)
  | choice (condition body : List Command) (otherwise : List Command)
      (redirections : List Redirection)
  | loop (whileFails : Bool) (condition body : List Command) (redirections : List Redirection)
  | forEach (name : String) (words : Option (List (List Part))) (body : List Command)
      (redirections : List Redirection)
  | cases (word : List Part) (clauses : List (List (List Part) × List Command))
      (redirections : List Redirection)
  | function (name : String) (body : Command)

end

/-- Why a script is not well formed. -/
inductive ScriptFault where
  | openQuote
  | openBackquote
  | openBrace
  | openArithmetic
  | badLoopVariable
  | badFunctionName
  | unexpected (token : String) (expected : Option String)
  deriving DecidableEq, Repr

def ScriptFault.message : ScriptFault → String
  | .openQuote => "Unterminated quoted string"
  | .openBackquote => "EOF in backquote substitution"
  | .openBrace => "Missing '\x7d'"
  | .openArithmetic => "Missing '))'"
  | .badLoopVariable => "Bad for loop variable"
  | .badFunctionName => "Bad function name"
  | .unexpected token expected =>
    token ++ " unexpected" ++ match expected with
      | some e => " (expecting " ++ e ++ ")"
      | none => ""

/-- A fault, and how many characters of the script were left at it. -/
structure Misread where
  fault : ScriptFault
  remaining : Nat
  deriving DecidableEq, Repr

end LoopTuner.Shell
