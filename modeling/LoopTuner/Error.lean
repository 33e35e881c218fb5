import LoopTuner.Command.Status
import LoopTuner.Decimal.Style
import LoopTuner.Search.Kind
import LoopTuner.Text.Numeral
import LoopTuner.Text.Quoted

/-!
Errors: a cause, and the contexts in which it arose, outermost first. Each of them has one line of
text, and the message of the error is the lines joined by colons.
-/

namespace LoopTuner

/-- Why a file or a stream could not be read. -/
inductive ReadFault where
  | notFound
  | notDirectory
  | isDirectory
  | nameTooLong
  | notUtf8
  deriving DecidableEq, Repr

def ReadFault.message : ReadFault → String
  | .notFound => "No such file or directory (os error 2)"
  | .notDirectory => "Not a directory (os error 20)"
  | .isDirectory => "Is a directory (os error 21)"
  | .nameTooLong => "File name too long (os error 36)"
  | .notUtf8 => "stream did not contain valid UTF-8"

/-- What went wrong. -/
inductive Cause where
  | invalidExploration (factor : Float)
  | zeroBranching
  | emptyPipeline
  | unknownKind (text : String)
  | missingClassification (id : String)
  | unknownOperation (id : String)
  | unknownLabel (label : String)
  | numeral (fault : Text.Numeral.Fault)
  | commandFailed (status : Command.Status) (diagnostics : String)
  | commandTimedOut (milliseconds : Nat)
  | notACost (line : String)
  | unreadable (fault : ReadFault)
  /-- A fault of a kernel text, of a step or of a caller's own making, already in words. -/
  | reported (text : String)
  deriving DecidableEq

/-- A duration in the largest unit of which it has at least one. -/
def durationText (milliseconds : Nat) : String :=
  if milliseconds = 0 then "0ns"
  else if milliseconds < 1000 then toString milliseconds ++ "ms"
  else
    let places := (toString (1000 + milliseconds % 1000)).toList.drop 1
    let kept := (places.reverse.dropWhile (· == '0')).reverse
    toString (milliseconds / 1000) ++ (if kept.isEmpty then "" else ".") ++ String.ofList kept ++ "s"

def Cause.message : Cause → String
  | .invalidExploration factor =>
    "exploration factor must be finite and non-negative, got " ++ Decimal.Style.plain.write factor
  | .zeroBranching => "maximum branching factor must be positive"
  | .emptyPipeline => "transformation pipeline has no stages"
  | .unknownKind text => "unknown transformation kind `" ++ text ++ "`"
  | .missingClassification id => "operation `" ++ id ++ "` has no classification entry"
  | .unknownOperation id => "classification refers to unknown operation `" ++ id ++ "`"
  | .unknownLabel label => "unknown operation label `" ++ label ++ "`"
  | .numeral fault => fault.message
  | .commandFailed status diagnostics =>
    "evaluator exited with " ++ status.text ++ ": " ++ diagnostics
  | .commandTimedOut milliseconds =>
    "evaluator did not finish within " ++ durationText milliseconds
  | .notACost line => "evaluator output is not a number: " ++ Text.Quoted.encode line
  | .unreadable fault => fault.message
  | .reported text => text

/-- Where it went wrong. -/
inductive Context where
  | line (number : Nat)
  | extent (loop : String)
  | illegalStep (step : String)
  | candidates (kind : Kind) (node stage : Nat)
  | searchRound (round : Nat)
  | bestFirstLevel (level : Nat)
  | readingKernel (path : String)
  | parsing (path : String)
  | runningCommand (fault : ReadFault)
  deriving DecidableEq

def Context.message : Context → String
  | .line number => "line " ++ toString number
  | .extent loop => "invalid extent of loop `" ++ loop ++ "`"
  | .illegalStep step => "generated illegal " ++ step
  | .candidates kind node stage =>
    kind.name ++ " candidates for node " ++ toString node ++ " at stage " ++ toString stage
  | .searchRound round => "search round " ++ toString round
  | .bestFirstLevel level => "best-first level " ++ toString level
  | .readingKernel path => "reading kernel from " ++ path
  | .parsing path => "parsing " ++ path
  | .runningCommand fault => "failed to run evaluator command: " ++ fault.message

structure Error where
  context : List Context
  cause : Cause
  deriving DecidableEq

namespace Error

def ofCause (cause : Cause) : Error := ⟨[], cause⟩

instance : Coe Cause Error := ⟨ofCause⟩

/-- The same error, seen from a wider context. -/
def within (context : Context) (e : Error) : Error := { e with context := context :: e.context }

/-- The lines of the error, outermost first. The last one is the cause. -/
def chain (e : Error) : List String := e.context.map Context.message ++ [e.cause.message]

def message (e : Error) : String := ": ".intercalate e.chain

end Error

/-- Reads the name of a kind. -/
def Kind.read (text : String) : Except Error Kind :=
  match Kind.read? text with
  | some kind => .ok kind
  | none => .error (.ofCause (.unknownKind text))

end LoopTuner
