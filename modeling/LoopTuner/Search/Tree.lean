import LoopTuner.Search.Node

/-!
Search trees. The nodes are numbered in the order in which they were added, the root first, and refer
to each other by number. Parents are added before their children, so the way up from a node passes
smaller and smaller numbers.
-/

namespace LoopTuner

structure Tree (P T : Type) where
  nodes : Array (Node P T)
  deriving DecidableEq

namespace Tree

variable {P T : Type}

/-- The number of the root. -/
def rootIndex : Nat := 0

/-- The tree of a root without parent and children. -/
def ofRoot (root : Node P T) : Tree P T := ⟨#[root]⟩

def size (t : Tree P T) : Nat := t.nodes.size

def isEmpty (t : Tree P T) : Bool := t.nodes.isEmpty

def node? (t : Tree P T) (i : Nat) : Option (Node P T) := t.nodes[i]?

def get (t : Tree P T) (i : Nat) : Except Violation (Node P T) :=
  match t.node? i with
  | some n => .ok n
  | none => .error (.noNode i)

/-- The nodes in the order of their numbers. -/
def toList (t : Tree P T) : List (Node P T) := t.nodes.toList

def modify (t : Tree P T) (i : Nat) (f : Node P T → Node P T) : Tree P T := ⟨t.nodes.modify i f⟩

/-- Adds a node as the last child of `parent`. The node has to name that parent and to be one stage
further. -/
def addChild (t : Tree P T) (parent : Nat) (child : Node P T) : Except Violation (Nat × Tree P T) :=
  if child.parent = some parent then
    match t.node? parent with
    | none => .error (.noNode parent)
    | some p =>
      if child.stage = p.stage + 1 then
        .ok (t.size, ⟨(t.nodes.push child).modify parent (·.adopt t.size)⟩)
      else .error (.wrongStage (p.stage + 1) child.stage)
  else .error (.wrongParent parent child.parent)

def parent? (t : Tree P T) (i : Nat) : Option Nat := (t.node? i).bind (·.parent)

/-- The numbers from `i` up to the root, at most `fuel` of them. -/
def ascend (t : Tree P T) : Nat → Nat → List Nat
  | 0, _ => []
  | fuel + 1, i => i :: match t.parent? i with
    | none => []
    | some p => t.ascend fuel p

/-- The numbers from `i` up to the root, both included. -/
def pathToRoot (t : Tree P T) (i : Nat) : List Nat := t.ascend (i + 1) i

/-- Adds a cost to the given nodes. -/
def recordAll (t : Tree P T) (cost : Float) (path : List Nat) : Tree P T :=
  path.foldl (fun t i => t.modify i (·.record cost)) t

/-- Adds a cost to `i` and to all its ancestors. -/
def backup (t : Tree P T) (i : Nat) (cost : Float) : Except Violation (Tree P T) :=
  if i < t.size then .ok (t.recordAll cost (t.pathToRoot i)) else .error (.noNode i)

/-- The place of the average of node `i`. -/
def rankOf (t : Tree P T) (i : Nat) : UInt64 :=
  match t.node? i with
  | some n => n.rank
  | none => 0

/-- The child of least average; among equals the first. -/
def bestChild (t : Tree P T) (i : Nat) : Except Violation (Option Nat) :=
  match t.node? i with
  | some n => .ok (Cost.leastBy t.rankOf n.children.toList)
  | none => .error (.noNode i)

/-- Gives up the tree for one of its nodes. -/
def detach (t : Tree P T) (i : Nat) : Except Violation (Node P T) :=
  match t.node? i with
  | some n => .ok n.detached
  | none => .error (.noNode i)

end Tree

end LoopTuner
