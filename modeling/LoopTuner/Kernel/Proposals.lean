import LoopTuner.Kernel.Step
import LoopTuner.Search.Pipeline

/-!
The candidates of a kernel. Each kind of transformation proposes steps for one operation at a time,
from its label and the present state of its loops, and the operations are taken in the order of the
classification.
-/

namespace LoopTuner

abbrev KernelNode := Node Kernel Step

namespace Kernel

/-- The classification of every operation by its declared class. -/
def classify (k : Kernel) : Classification Nat :=
  .ofList (k.nests.mapIdx fun i n => (n.id, ⟨i, n.opClass.name⟩))

/-- The position and class of a classified operation. -/
def resolveEntry (k : Kernel) (id : String) (entry : Classified Nat) :
    Except Cause (Nat × OpClass) :=
  match k.nests[entry.operation]? with
  | none => .error (.unknownOperation id)
  | some nest =>
    if nest.id = id then
      match OpClass.ofLabel? entry.label with
      | none => .error (.unknownLabel entry.label)
      | some opClass => .ok (entry.operation, opClass)
    else .error (.unknownOperation id)

def resolveEntries (k : Kernel) :
    List (String × Classified Nat) → Except Cause (List (Nat × OpClass))
  | [] => .ok []
  | (id, entry) :: rest =>
    match k.resolveEntry id entry with
    | .error cause => .error cause
    | .ok operation =>
      match k.resolveEntries rest with
      | .error cause => .error cause
      | .ok operations => .ok (operation :: operations)

/-- The position and class of every operation, in the order of the classification. The
classification has to describe exactly the operations of the kernel. -/
def resolve (k : Kernel) (classification : Classification Nat) :
    Except Cause (List (Nat × OpClass)) :=
  match k.nests.find? fun n => !classification.contains n.id with
  | some nest => .error (.missingClassification nest.id)
  | none => k.resolveEntries classification.entries

end Kernel

namespace Proposals

/-- The ways to take one element from each list; those of the last list vary fastest. -/
def selections {α : Type} : List (List α) → List (List α)
  | [] => [[]]
  | options :: rest =>
    let tails := selections rest
    options.flatMap fun x => tails.map (x :: ·)

/-- Each element with the others, in order. -/
def picks {α : Type} : List α → List (α × List α)
  | [] => []
  | x :: xs => (x, xs) :: (picks xs).map fun (y, rest) => (y, x :: rest)

/-- The arrangements of `count` of the elements, in lexicographic order of positions. -/
def arrangements {α : Type} : Nat → List α → List (List α)
  | 0, _ => [[]]
  | count + 1, xs =>
    (picks xs).flatMap fun (x, rest) => (arrangements count rest).map (x :: ·)

/-- The sizes by which a loop can be tiled. A loop that is tiled or parallel is left alone. -/
def tileSizes (sizes : List Nat) (l : Loop) : List Nat :=
  if l.isTiled || l.parallel then []
  else sizes.filter fun size => 0 < size && size < l.extent && l.extent % size == 0

/-- Every combination of tile sizes that tiles at least one loop. -/
def tilings (sizes : List Nat) (op : Nat) (_ : OpClass) (nest : Nest) : List Step :=
  if nest.isVectorized then []
  else
    let options := nest.loops.map fun l => none :: (tileSizes sizes l).map some
    ((selections options).filter fun choice => choice.any Option.isSome).map (.tile op ·)

/-- Running one, two, and more of the outer loops in parallel, before the first reduction. -/
def parallelizations (op : Nat) (_ : OpClass) (nest : Nest) : List Step :=
  if nest.loops.any (·.parallel) then []
  else
    let outer := nest.loops.takeWhile fun l => !l.reduction
    (List.range outer.length).map fun i => .parallelize op (i + 1)

/-- Whether the last loop of an order is a reduction. -/
def endsInReduction (loops : List Loop) (order : List Nat) : Bool :=
  match order.getLast? with
  | none => false
  | some i => (loops[i]?).any (·.reduction)

/-- Every other order of the loops after the leading parallel ones. An operation of class `reduction`
keeps a reduction last. -/
def interchanges (op : Nat) (opClass : OpClass) (nest : Nest) : List Step :=
  let fixed := (nest.loops.takeWhile (·.parallel)).length
  let movable := List.range' fixed (nest.loops.length - fixed)
  let orders := (arrangements movable.length movable).filter fun order =>
    order != movable && (opClass != .reduction || endsInReduction nest.loops order)
  orders.map fun order => .interchange op (List.range fixed ++ order)

/-- The widths that divide the trip count of the innermost loop, unless that is a reduction. -/
def vectorizations (widths : List Nat) (op : Nat) (_ : OpClass) (nest : Nest) : List Step :=
  match nest.innermost? with
  | none => []
  | some innermost =>
    if nest.isVectorized || innermost.source.reduction then []
    else
      let count := innermost.tripCount
      (widths.filter fun width => 0 < width && width ≤ count && count % width == 0).map
        (.vectorize op ·)

def defaultTileSizes : List Nat := [8, 16, 32, 64]

def defaultWidths : List Nat := [4, 8, 16]

/-- The steps of a kind for one operation, with the given sizes in place of the default ones. -/
def ofKind (kind : Kind) (sizes : Option (List Nat)) : Nat → OpClass → Nest → List Step :=
  match kind with
  | .tiling => tilings (sizes.getD defaultTileSizes)
  | .parallelization => parallelizations
  | .interchange => interchanges
  | .vectorization => vectorizations (sizes.getD defaultWidths)

/-- The candidates of a node for the given steps on it. -/
def applied (node : KernelNode) : List Step → Except Error (List (Candidate Kernel Step))
  | [] => .ok []
  | step :: steps =>
    match step.apply node.program with
    | .error fault =>
      .error ((Error.ofCause (.reported fault.message)).within (.illegalStep step.render))
    | .ok program =>
      match applied node steps with
      | .error e => .error e
      | .ok rest => .ok (.extending node program step :: rest)

/-- The steps that are proposed for the operations in turn. -/
def stepsFor (propose : Nat → OpClass → Nest → List Step) (k : Kernel)
    (operations : List (Nat × OpClass)) : List Step :=
  operations.flatMap fun (op, opClass) =>
    match k.nests[op]? with
    | some nest => propose op opClass nest
    | none => []

/-- The candidates of a node for the steps that are proposed for each of its operations. -/
def candidates (propose : Nat → OpClass → Nest → List Step) (node : KernelNode)
    (classification : Classification Nat) : Except Error (List (Candidate Kernel Step)) :=
  match node.program.resolve classification with
  | .error cause => .error (.ofCause cause)
  | .ok operations => applied node (stepsFor propose node.program operations)

/-- The phase of a kind. -/
def phase {σ : Type} (kind : Kind) (sizes : Option (List Nat)) : Phase Kernel Step Nat σ :=
  ⟨kind, Generator.pure fun node _ classification => candidates (ofKind kind sizes) node classification⟩

/-- The pipeline of the given kinds with their default sizes. -/
def pipeline {σ : Type} (kinds : List Kind) : Pipeline Kernel Step Nat σ :=
  kinds.map fun kind => phase kind none

end Proposals

end LoopTuner
