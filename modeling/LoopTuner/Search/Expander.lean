import LoopTuner.Random.Subset
import LoopTuner.Search.Pipeline
import LoopTuner.Search.Tree

/-!
Expansion of a node: its phase proposes candidates, at most `cap` of them are kept, and these become
the children of the node. The kept ones are drawn from one random stream, which is touched only when
there are more candidates than the cap.
-/

namespace LoopTuner

/-- Why a search stops early: an error of the input, or a step that the search may not take. -/
inductive Failure where
  | error (e : Error)
  | violation (v : Violation)
  deriving DecidableEq

def Failure.within (context : Context) : Failure → Failure
  | error e => error (e.within context)
  | violation v => violation v

/-- Upper bound on the children of one expansion, unless another one is configured. -/
def defaultCap : Nat := 25

structure Expander (P T O σ : Type) where
  pipeline : Pipeline P T O σ
  cap : Nat
  stream : Random.Stream
  /-- What the generators remember. -/
  memory : σ

namespace Expander

variable {P T O σ : Type}

def create (pipeline : Pipeline P T O σ) (cap : Nat) (seed : UInt64) (memory : σ) :
    Except Error (Expander P T O σ) :=
  if pipeline.isEmpty then .error (.ofCause .emptyPipeline)
  else if cap = 0 then .error (.ofCause .zeroBranching)
  else .ok ⟨pipeline, cap, .ofSeed seed, memory⟩

/-- Restarts the random stream. -/
def reseed (x : Expander P T O σ) (seed : UInt64) : Expander P T O σ :=
  { x with stream := .ofSeed seed }

def lastStage (x : Expander P T O σ) : Stage := x.pipeline.lastStage?.getD 0

/-- The candidates for the node at `index`. An expanded node and one past the last stage have none,
and the generator is not asked. -/
def candidates (x : Expander P T O σ) (node : Node P T) (index : Nat)
    (classification : Classification O) :
    Except Error (List (Candidate P T)) × Expander P T O σ :=
  match x.pipeline[node.stage]? with
  | none => (.ok [], x)
  | some phase =>
    if node.expanded then (.ok [], x)
    else
      match phase.propose node node.stage classification x.memory with
      | (.ok candidates, memory) => (.ok candidates, { x with memory := memory })
      | (.error e, memory) =>
        (.error (e.within (.candidates phase.kind index node.stage)), { x with memory := memory })

/-- Keeps at most `cap` candidates, in their order. -/
def limit (x : Expander P T O σ) (candidates : List (Candidate P T)) :
    List (Candidate P T) × Expander P T O σ :=
  if x.cap < candidates.length then
    let (kept, stream) := Random.sample candidates x.cap x.stream
    (kept, { x with stream := stream })
  else (candidates, x)

end Expander

namespace Candidate

variable {P T : Type}

/-- The node that a candidate becomes, below `parent` at `index`. -/
def toNode (c : Candidate P T) (parent : Node P T) (index offset : Nat) : Node P T :=
  (Node.fresh (some index) (parent.stage + 1) (parent.children.size + offset) c.program).reachedBy
    c.transformation c.history

/-- The nodes that candidates become. Their sibling indices continue those of the children. -/
def toNodes (candidates : List (Candidate P T)) (parent : Node P T) (index : Nat) :
    List (Node P T) :=
  candidates.mapIdx fun offset c => c.toNode parent index offset

end Candidate

namespace Tree

variable {P T : Type}

/-- Adds the nodes as children of `parent`, one after another. -/
def addChildren (t : Tree P T) (parent : Nat) :
    List (Node P T) → Except Violation (List Nat) × Tree P T
  | [] => (.ok [], t)
  | n :: rest =>
    match t.addChild parent n with
    | .error v => (.error v, t)
    | .ok (i, t) =>
      match t.addChildren parent rest with
      | (.error v, t) => (.error v, t)
      | (.ok indices, t) => (.ok (i :: indices), t)

end Tree

namespace Expander

variable {P T O σ : Type}

/-- Gives the node at `index` its children and marks it as expanded; the result lists the new
children. If the generator fails, the tree stays as it is. -/
def expand (x : Expander P T O σ) (t : Tree P T) (index : Nat) (classification : Classification O) :
    Except Failure (List Nat) × Tree P T × Expander P T O σ :=
  match t.node? index with
  | none => (.error (.violation (.noNode index)), t, x)
  | some node =>
    match x.candidates node index classification with
    | (.error e, x) => (.error (.error e), t, x)
    | (.ok candidates, x) =>
      let (kept, x) := x.limit candidates
      match (t.modify index Node.markExpanded).addChildren index
          (Candidate.toNodes kept node index) with
      | (.error v, t) => (.error (.violation v), t, x)
      | (.ok indices, t) => (.ok indices, t, x)

end Expander

end LoopTuner
