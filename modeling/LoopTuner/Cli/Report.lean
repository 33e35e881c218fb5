import LoopTuner.Kernel.Printer
import LoopTuner.Kernel.Step
import LoopTuner.Search.Config

/-!
What the program prints: the best kernel with the steps to it, or an error with its causes.
-/

namespace LoopTuner.Cli

def costLine (cost : Option Float) : String :=
  match cost with
  | some cost => "best cost " ++ Decimal.Style.plain.write cost ++ "\n"
  | none => "best cost unknown\n"

/-- The steps, numbered from one on. -/
def stepLines (steps : List Step) : String :=
  if steps.isEmpty then "no transformation improved the kernel\n"
  else String.join (steps.mapIdx fun i step => toString (i + 1) ++ ". " ++ step.render ++ "\n")

def statisticsLine (s : Statistics) : String :=
  toString s.rounds ++ " rounds, " ++ toString s.nodes ++ " nodes, " ++
    toString s.measurements ++ " measurements (" ++ toString s.failed ++ " failed)\n"

def resultText (best : Node Kernel Step) (statistics : Statistics) : String :=
  costLine best.evaluation ++ stepLines best.history ++ best.program.render ++
    statisticsLine statistics

/-- A cause in a list of several, with its number before it. -/
def numberedCause (number : Nat) (text : String) : String :=
  let digits := toString number
  String.ofList (List.replicate (5 - digits.length) ' ') ++ digits ++ ": " ++ text ++ "\n"

/-- The causes below the outermost message of an error. -/
def causeLines (causes : List String) : String :=
  match causes with
  | [] => ""
  | [cause] => "\nCaused by:\n    " ++ cause ++ "\n"
  | causes => "\nCaused by:\n" ++ String.join (causes.mapIdx numberedCause)

def errorText (e : Error) : String :=
  match e.chain with
  | [] => ""
  | outermost :: causes => "Error: " ++ outermost ++ "\n" ++ causeLines causes

end LoopTuner.Cli
