/-!
What the program says about itself.
-/

namespace LoopTuner.Cli

def programName : String := "mlsched"

def versionText : String := programName ++ " 2024.6.16\n"

def usageText : String := "Usage: mlsched [OPTIONS] --evaluator <EVALUATOR> <KERNEL>\n"

/-- An option with its value, what it means, and what else there is to say of it. -/
structure HelpEntry where
  spelling : String
  meaning : String
  remark : String
  /-- The values that it can have, with what they mean. -/
  values : List (String × String)

def helpEntries : List HelpEntry := [
  ⟨"--evaluator <EVALUATOR>", "Shell command that compiles and times a program", "", []⟩,
  ⟨"--iterations <ITERATIONS>", "Search rounds", "[default: 100]", []⟩,
  ⟨"--strategy <STRATEGY>", "", "[default: tree]",
    [("tree", "Monte Carlo tree search"), ("best-first", "Level-by-level best-first sweep")]⟩,
  ⟨"--exploration <EXPLORATION>", "Weight of the exploration term",
    "[default: 1.4142135623730951]", []⟩,
  ⟨"--max-branching <MAX_BRANCHING>", "Maximum number of children per expansion",
    "[default: 25]", []⟩,
  ⟨"--seed <SEED>", "Seed of candidate sampling", "[default: 0]", []⟩,
  ⟨"--stages <STAGES>", "Transformation kinds in application order",
    "[default: tiling,parallelization,interchange,vectorization]", []⟩,
  ⟨"--timeout <TIMEOUT>", "Upper bound on a single measurement, in seconds", "[default: 60]", []⟩]

def kernelMeaning : String :=
  "Kernel description, one `<id> <label> <loop>=<extent>...` per line"

def spaces (n : Nat) : String := String.ofList (List.replicate n ' ')

/-- Fills lines of the given width with words. -/
def wrapWords (width : Nat) (words : List String) : List String :=
  (words.foldl (fun (lines : List String) word =>
    match lines with
    | [] => [word]
    | line :: rest =>
      if line.length + 1 + word.length ≤ width then (line ++ " " ++ word) :: rest
      else word :: lines) []).reverse

/-- A paragraph of help in lines of at most 100 columns, those after the first one indented. -/
def paragraph (indent : Nat) (text : String) : String :=
  ("\n" ++ spaces indent).intercalate (wrapWords (100 - indent) (text.splitOn " "))

def shortEntry (e : HelpEntry) : String :=
  let values := if e.values.isEmpty then []
    else ["[possible values: " ++ ", ".intercalate (e.values.map (·.1)) ++ "]"]
  let text := " ".intercalate ((e.meaning :: e.remark :: values).filter fun s => !s.isEmpty)
  "      " ++ e.spelling ++ "\n" ++ spaces 10 ++ paragraph 10 text ++ "\n"

def longEntry (e : HelpEntry) : String :=
  let texts := [e.meaning, e.remark].filter fun s => !s.isEmpty
  let widest := (e.values.map fun v => v.1.length).foldl max 0
  let values := e.values.map fun (value, meaning) =>
    "\n" ++ spaces 10 ++ "- " ++ value ++ ": " ++ spaces (widest - value.length) ++ meaning
  "      " ++ e.spelling ++ "\n" ++ spaces 10 ++
    ("\n" ++ spaces 10 ++ "\n" ++ spaces 10).intercalate texts ++
    (if values.isEmpty then ""
      else "\n\n" ++ spaces 10 ++ "Possible values:" ++ String.join values) ++ "\n\n"

def shortHelp : String :=
  "Staged heuristic tree search for compiler auto-tuning\n\n" ++ usageText ++
    "\nArguments:\n  <KERNEL>  " ++ kernelMeaning ++ "\n\nOptions:\n" ++
    String.join (helpEntries.map shortEntry) ++
    "  -h, --help\n          Print help (see more with '--help')\n" ++
    "  -V, --version\n          Print version\n"

def longHelp : String :=
  "Searches for the fastest schedule of a kernel.\n\n" ++
    paragraph 0 ("Every candidate program is written to the standard input of the evaluator " ++
      "command, which has to print the measured time as the last line of its output.") ++
    "\n\n" ++ usageText ++
    "\nArguments:\n  <KERNEL>\n          " ++ kernelMeaning ++ "\n\nOptions:\n" ++
    String.join (helpEntries.map longEntry) ++
    "  -h, --help\n          Print help (see a summary with '-h')\n\n" ++
    "  -V, --version\n          Print version\n"

def helpText (long : Bool) : String := if long then longHelp else shortHelp

end LoopTuner.Cli
