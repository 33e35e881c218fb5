import LoopTuner.Kernel.Basic

/-!
Steps: the transformations of a single operation. A step either yields a transformed kernel or a
fault; the kernel that it was applied to is a value and stays.
-/

namespace LoopTuner

/-- A transformation of the operation at position `op`. -/
inductive Step where
  /-- Strip-mines loops: entry `i` is the tile size of loop `i`, if it is to be tiled. -/
  | tile (op : Nat) (sizes : List (Option Nat))
  /-- Runs the given number of outermost loops in parallel. -/
  | parallelize (op : Nat) (loops : Nat)
  /-- Reorders the loops: position `i` receives the loop at entry `i`. -/
  | interchange (op : Nat) (order : List Nat)
  /-- Vectorizes the loop that runs innermost. -/
  | vectorize (op : Nat) (width : Nat)
  deriving DecidableEq, Repr

namespace Step

def op : Step → Nat
  | tile op _ | parallelize op _ | interchange op _ | vectorize op _ => op

/-- The items with a comma between them, in brackets. -/
def listText (items : List String) : String := "[" ++ ", ".intercalate items ++ "]"

def sizeText : Option Nat → String
  | none => "-"
  | some size => toString size

def render : Step → String
  | tile op sizes => "tile(op" ++ toString op ++ ", " ++ listText (sizes.map sizeText) ++ ")"
  | parallelize op loops => "parallelize(op" ++ toString op ++ ", " ++ toString loops ++ ")"
  | interchange op order =>
    "interchange(op" ++ toString op ++ ", " ++ listText (order.map toString) ++ ")"
  | vectorize op width => "vectorize(op" ++ toString op ++ ", " ++ toString width ++ ")"

/-- Why a step does not apply. -/
inductive Fault where
  | noOperation (op count : Nat)
  | wrongSizes (step : Step) (depth : Nat)
  | indivisible (size : Nat) (loop : String) (extent : Nat)
  | tooDeep (step : Step)
  | notAPermutation (step : Step) (depth : Nat)
  | zeroWidth
  deriving DecidableEq

def Fault.message : Fault → String
  | .noOperation op count =>
    "operation " ++ toString op ++ " is out of range, kernel has " ++ toString count
  | .wrongSizes step depth =>
    step.render ++ " does not match a nest of " ++ toString depth ++ " loops"
  | .indivisible size loop extent =>
    "tile size " ++ toString size ++ " does not divide loop `" ++ loop ++ "` of extent " ++
      toString extent
  | .tooDeep step => step.render ++ " exceeds the nest depth"
  | .notAPermutation step depth =>
    step.render ++ " is not a permutation of " ++ toString depth ++ " loops"
  | .zeroWidth => "vector width has to be positive"

end Step

namespace Loop

/-- Whether the loop can be cut into tiles of this size. -/
def Admits (l : Loop) (size : Nat) : Prop := 0 < size ∧ size ∣ l.extent

instance (l : Loop) (size : Nat) : Decidable (l.Admits size) := by unfold Admits; infer_instance

/-- Tiles the loop if a size is given. -/
def retile (l : Loop) : Option Nat → Except Step.Fault Loop
  | none => .ok l
  | some size =>
    if l.Admits size then .ok { l with tile := some size }
    else .error (.indivisible size l.name l.extent)

end Loop

namespace Nest

/-- Tiles the loops in order; the first size that does not divide decides the fault. -/
def retileLoops : List Loop → List (Option Nat) → Except Step.Fault (List Loop)
  | l :: loops, size :: sizes =>
    match l.retile size with
    | .error fault => .error fault
    | .ok l =>
      match retileLoops loops sizes with
      | .error fault => .error fault
      | .ok loops => .ok (l :: loops)
  | loops, _ => .ok loops

/-- Marks the first loops as parallel. -/
def parallelizeLoops : Nat → List Loop → List Loop
  | count + 1, l :: loops => { l with parallel := true } :: parallelizeLoops count loops
  | _, loops => loops

/-- The position of the loop that runs innermost: the last tiled one, or the last of all. -/
def innerPosition (loops : List Loop) : Nat :=
  match loops.reverse.findIdx? Loop.isTiled with
  | some fromEnd => loops.length - 1 - fromEnd
  | none => loops.length - 1

def vectorizeLoops (width : Nat) (loops : List Loop) : List Loop :=
  loops.modify (innerPosition loops) fun l => { l with vectorWidth := some width }

/-- The loops in the given order. -/
def reorderLoops (order : List Nat) (loops : List Loop) : List Loop :=
  order.filterMap (loops[·]?)

/-- The loops after a step on their nest. -/
def stepLoops (step : Step) (loops : List Loop) : Except Step.Fault (List Loop) :=
  match step with
  | .tile _ sizes =>
    if sizes.length = loops.length then retileLoops loops sizes
    else .error (.wrongSizes step loops.length)
  | .parallelize _ count =>
    if count ≤ loops.length then .ok (parallelizeLoops count loops) else .error (.tooDeep step)
  | .interchange _ order =>
    if order.Perm (List.range loops.length) then .ok (reorderLoops order loops)
    else .error (.notAPermutation step loops.length)
  | .vectorize _ width =>
    if 0 < width then .ok (vectorizeLoops width loops) else .error .zeroWidth

end Nest

namespace Step

/-- Applies the step to a kernel. -/
def apply (step : Step) (k : Kernel) : Except Fault Kernel :=
  match k.nests[step.op]? with
  | none => .error (.noOperation step.op k.nests.length)
  | some nest =>
    match Nest.stepLoops step nest.loops with
    | .error fault => .error fault
    | .ok loops => .ok ⟨k.nests.set step.op { nest with loops := loops }⟩

/-- Applies the steps one after another. -/
def applyAll : List Step → Kernel → Except Fault Kernel
  | [], k => .ok k
  | step :: steps, k =>
    match step.apply k with
    | .error fault => .error fault
    | .ok k => applyAll steps k

end Step

end LoopTuner
