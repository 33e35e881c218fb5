import LoopTuner.Decimal.Reading
import LoopTuner.Error
import LoopTuner.Text.Blank

/-!
What a command has to report. The cost is the last line of its output that is not blank; a command
that fails, that takes too long or that writes no text has no cost.
-/

namespace LoopTuner.Command

open Text

/-- The last line that is not blank, without the blanks around it. -/
def lastLine (output : List Char) : List Char :=
  (((lines output).map trim).reverse.find? (!·.isEmpty)).getD []

/-- Reads the cost from the output of a command. -/
def readCost (output : String) : Except Error Float :=
  let line := lastLine output.toList
  match Decimal.read? line with
  | some cost => .ok cost
  | none => .error (.ofCause (.notACost (String.ofList line)))

/-- A command that ran to its end: how it ended, and the bytes it wrote. -/
structure Finished where
  status : Status
  output : ByteArray
  diagnostics : ByteArray

/-- What became of a command. -/
inductive Outcome where
  | finished (run : Finished)
  | timedOut

/-- The error of a stream that could not be read while the command ran. -/
def unreadable (fault : ReadFault) : Error := ⟨[.runningCommand fault], .unreadable fault⟩

/-- Reads a stream as text. -/
def readText (bytes : ByteArray) : Except Error String :=
  match String.fromUTF8? bytes with
  | some text => .ok text
  | none => .error (unreadable .notUtf8)

/-- The cost that a finished command reports. Both streams have to be text. -/
def Finished.cost (f : Finished) : Except Error Float :=
  match readText f.output with
  | .error e => .error e
  | .ok output =>
    match readText f.diagnostics with
    | .error e => .error e
    | .ok diagnostics =>
      if f.status.isSuccess then readCost output
      else
        .error (.ofCause (.commandFailed f.status (String.ofList (trim diagnostics.toList))))

/-- The cost that a command reports within the given time. -/
def Outcome.cost (limit : Nat) : Outcome → Except Error Float
  | finished run => run.cost
  | timedOut => .error (.ofCause (.commandTimedOut limit))

end LoopTuner.Command
