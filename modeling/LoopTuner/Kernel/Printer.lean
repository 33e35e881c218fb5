import LoopTuner.Kernel.Basic

/-!
Writing a kernel as pseudo-code, one loop of the schedule per line. The loops over tiles carry the
parallel mark and the last line carries the vector mark.
-/

namespace LoopTuner

/-- The head of a loop: its variable, its range and its step. -/
def ScheduledLoop.header (s : ScheduledLoop) : String :=
  match s.source.tile, s.point with
  | some tile, false =>
    "for " ++ s.source.name ++ " in 0.." ++ toString s.source.extent ++ " step " ++ toString tile
  | some tile, true => "for " ++ s.source.name ++ ".p in 0.." ++ toString tile
  | none, _ => "for " ++ s.source.name ++ " in 0.." ++ toString s.source.extent

/-- The marks before the head of a loop. -/
def ScheduledLoop.marks (s : ScheduledLoop) (isLast : Bool) : String :=
  (if s.source.parallel && !s.point then "parallel " else "") ++
    match s.source.vectorWidth, isLast with
    | some width, true => "vector<" ++ toString width ++ "> "
    | _, _ => ""

/-- The line of a loop with `depth` loops around it. -/
def ScheduledLoop.line (s : ScheduledLoop) (depth : Nat) (isLast : Bool) : String :=
  String.ofList (List.replicate (2 * (depth + 1)) ' ') ++ s.marks isLast ++ s.header ++
    (if s.source.reduction then " reduce" else "") ++ "\n"

/-- The lines of the loops inside `depth` loops. -/
def scheduleText : Nat → List ScheduledLoop → String
  | _, [] => ""
  | depth, s :: rest => s.line depth rest.isEmpty ++ scheduleText (depth + 1) rest

def Nest.render (n : Nest) : String :=
  n.id ++ " " ++ n.opClass.name ++ " \x7b\n" ++ scheduleText 0 n.schedule ++ "\x7d\n"

def Kernel.render (k : Kernel) : String := String.join (k.nests.map Nest.render)

end LoopTuner
