import LoopTuner.Decimal.Style
import LoopTuner.Search.Node
import LoopTuner.Text.Quoted

/-!
A node on one line, for inspection. The program and the chain are left out.
-/

namespace LoopTuner

/-- An optional value in words. -/
def optionText (text : Option String) : String :=
  match text with
  | none => "None"
  | some text => "Some(" ++ text ++ ")"

/-- The text of a violation that has one. -/
def Violation.message? : Violation → Option String
  | .alreadyEvaluated cost =>
    some ("evaluation is already set to " ++ optionText (some (Decimal.Style.marked.write cost)))
  | .unvisited index => some ("selecting below unvisited node " ++ toString index)
  | .noNode _ | .wrongParent _ _ | .wrongStage _ _ => none

def boolText (b : Bool) : String := if b then "true" else "false"

/-- The fields of a node by name; `render` writes a transformation. -/
def Node.describe {P T : Type} (n : Node P T) (render : T → String) : String :=
  let field (name text : String) : String := name ++ ": " ++ text ++ ", "
  "Node \x7b " ++
    field "parent" (optionText (n.parent.map toString)) ++
    field "children" ("[" ++ ", ".intercalate (n.children.toList.map toString) ++ "]") ++
    field "stage" (toString n.stage) ++
    field "sibling_index" (toString n.siblingIndex) ++
    field "visits" (toString n.visits) ++
    field "accumulated_value" (Decimal.Style.marked.write n.accumulated.sum) ++
    field "fully_expanded" (boolText n.expanded) ++
    field "evaluation" (optionText (n.evaluation.map Decimal.Style.marked.write)) ++
    field "transformation"
      (optionText (n.transformation.map fun t => Text.Quoted.encode (render t))) ++
    ".. \x7d"

end LoopTuner
