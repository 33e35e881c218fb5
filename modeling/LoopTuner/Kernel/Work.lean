import LoopTuner.Kernel.Printer
import LoopTuner.Kernel.Step
import LoopTuner.Search.CostModel

/-!
An estimate of the work of a kernel, by which it can be tuned without being run.
-/

namespace LoopTuner.Kernel

/-- Iterations of a nest, shared among its parallel loops and the lanes of its vectors. -/
def nestWork (n : Nest) : Float :=
  let iterations := n.loops.foldl (fun product l => product * l.extent.toFloat) 1
  let parallel := n.loops.countP (·.parallel)
  let width := (n.loops.findSome? (·.vectorWidth)).getD 1
  iterations / ((parallel.toFloat + 1) * width.toFloat)

def work (k : Kernel) : Float := k.nests.foldl (fun total n => total + nestWork n) 0

/-- Whether `part` occurs in the text. -/
def occursIn (part : List Char) : List Char → Bool
  | [] => part.isEmpty
  | c :: rest => part.isPrefixOf (c :: rest) || occursIn part rest

/-- A key of a cost table means the kernels whose text contains it. -/
def features : Features String Kernel where
  isMeant part k := occursIn part.toList k.render.toList
  digits k := k.render.toUTF8.toList.map UInt8.toNat
  work := work

end LoopTuner.Kernel
