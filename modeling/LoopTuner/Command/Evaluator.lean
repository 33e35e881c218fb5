import LoopTuner.Kernel.Printer
import LoopTuner.Kernel.Step
import LoopTuner.Search.Meter
import LoopTuner.Shell.Interpreter

/-!
Measuring kernels by a command. The command finds the text of the kernel on its input and reports the
cost; the files that it leaves are there when it runs again.
-/

namespace LoopTuner.Command

/-- Runs the command on the program of a node, for a limited number of milliseconds. -/
def evaluator (command : String) (limit : Nat) : Evaluator Kernel Step Shell.Files :=
  fun node files =>
    let (outcome, files) :=
      Shell.run command (Shell.bytesOf node.program.render) files limit
    (outcome.cost limit, files)

end LoopTuner.Command
