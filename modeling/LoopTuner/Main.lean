import LoopTuner.Cli.Run

/-!
The program. Its kernel is the file that its first operand names, and the commands of its evaluator
find that file under the same name.
-/

/-- The bytes of a file, or why there are none. -/
def readFileBytes (path : String) : IO (Except LoopTuner.ReadFault ByteArray) := do
  try
    return .ok (← IO.FS.readBinFile path)
  catch
    | .noFileOrDirectory .. => return .error .notFound
    | .inappropriateType .. => return .error .isDirectory
    | _ => return .error .notDirectory

def main (arguments : List String) : IO UInt32 := do
  let request := LoopTuner.Cli.readArguments arguments
  let contents ← match request with
    | .ok (.search o) => readFileBytes o.kernel
    | _ => pure (.error .notFound)
  let bytes := contents.map (·.toList)
  let files : LoopTuner.Shell.Files := match request, bytes with
    | .ok (.search o), .ok bytes => [(LoopTuner.Shell.plainName o.kernel, bytes)]
    | _, _ => []
  let reply := LoopTuner.Cli.answer (fun _ => LoopTuner.Cli.readText bytes) files request
  IO.print reply.output
  IO.eprint reply.diagnostics
  return reply.exit.toUInt32
