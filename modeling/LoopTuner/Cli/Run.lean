import LoopTuner.Cli.Arguments
import LoopTuner.Cli.Help
import LoopTuner.Cli.Report
import LoopTuner.Command.Evaluator
import LoopTuner.Kernel.Proposals
import LoopTuner.Kernel.Reader
import LoopTuner.Search.Run

/-!
Running the program: from its arguments and the files to what it prints and how it exits.
-/

namespace LoopTuner.Cli

structure Reply where
  exit : Nat
  output : String
  diagnostics : String
  deriving DecidableEq

def Reply.ofError (e : Error) : Reply := ⟨1, "", errorText e⟩

/-- The end of a program that has met a violation of its own rules. -/
def Reply.aborted (reason : String) : Reply := ⟨101, "", reason ++ "\n"⟩

/-- The parts of a path. One at the end may be empty. -/
def pathParts (path : String) : List String :=
  let parts := path.splitOn "/"
  parts.dropWhile fun part => part = "." || (part.isEmpty && !path.startsWith "/")

/-- Opens a file of the working directory, which has no directories in it. -/
def openFile (files : Shell.Files) (path : String) : Except ReadFault Shell.Bytes :=
  if path = "/dev/null" || path = "/dev/stdin" then .ok []
  else if (path.splitOn "/").any fun part => 255 < part.utf8ByteSize then .error .nameTooLong
  else
    match pathParts path with
    | [] => .error .isDirectory
    | name :: rest =>
      match files.find? name with
      | some contents => if rest.isEmpty then .ok contents else .error .notDirectory
      | none =>
        let isAbove := (name :: rest).all fun part => [".", "..", ""].contains part
        if isAbove || ["/tmp", "/tmp/", "/dev", "/root", "/etc", "/usr", "/bin"].contains path then
          .error .isDirectory
        else .error .notFound

/-- The text of a file. -/
def readText (contents : Except ReadFault Shell.Bytes) : Except ReadFault String :=
  match contents with
  | .error fault => .error fault
  | .ok bytes =>
    match String.fromUTF8? bytes.toByteArray with
    | some text => .ok text
    | none => .error .notUtf8

/-- A number of seconds so large that no clock can reach its end. -/
def isBeyondClocks (seconds : Nat) : Bool := decide (Nat.pow 2 63 - Nat.pow 10 9 ≤ seconds)

/-- Searches from a kernel. The result is the best node and the counters of the search. -/
def searchKernel (o : Options) (kernel : Kernel) (files : Shell.Files) :
    Except Reply (Node Kernel Step × Statistics) :=
  let evaluator := Command.evaluator o.evaluator (o.timeout * 1000)
  match Search.create o.config (Proposals.pipeline o.stages) () evaluator files with
  | .error e => .error (.ofError e)
  | .ok search =>
    if isBeyondClocks o.timeout then .error (.aborted "the time for a measurement is too long")
    else
      match search.run (.root kernel 0) kernel.classify o.iterations with
      | (.error (.error e), _) => .error (.ofError e)
      | (.error (.violation _), _) => .error (.aborted "the search has violated its own rules")
      | (.ok best, search) => .ok (best, search.statistics)

/-- Runs a search on the text of a kernel. -/
def runSearch (o : Options) (text : Except ReadFault String) (files : Shell.Files) : Reply :=
  match text with
  | .error fault =>
    .ofError ((Error.ofCause (.unreadable fault)).within (.readingKernel o.kernel))
  | .ok text =>
    match Kernel.read text with
    | .error fault => .ofError (fault.toError.within (.parsing o.kernel))
    | .ok kernel =>
      match searchKernel o kernel files with
      | .error reply => reply
      | .ok (best, statistics) => ⟨0, resultText best statistics, ""⟩

/-- Answers a request, or a fault in the arguments. -/
def answer (readText : String → Except ReadFault String) (files : Shell.Files) :
    Except UsageFault Request → Reply
  | .error fault =>
    ⟨2, "", "error: " ++ fault.message ++ "\n\n" ++ usageText ++
      "\nFor more information, try '--help'.\n"⟩
  | .ok (.help long) => ⟨0, helpText long, ""⟩
  | .ok .version => ⟨0, versionText, ""⟩
  | .ok (.search o) => runSearch o (readText o.kernel) files

/-- Runs the program in a directory with the given files. -/
def run (arguments : List String) (files : Shell.Files) : Reply :=
  answer (fun path => readText (openFile files path)) files (readArguments arguments)

end LoopTuner.Cli
