import LoopTuner.Text.Blank

/-!
The four kinds of transformation. Each stage of a search applies one of them.
-/

namespace LoopTuner

/-- A family of transformations. -/
inductive Kind where
  | tiling
  | parallelization
  | interchange
  | vectorization
  deriving DecidableEq, Repr

namespace Kind

/-- The kinds in the order in which they are usually applied. -/
def all : List Kind := [tiling, parallelization, interchange, vectorization]

def name : Kind → String
  | tiling => "tiling"
  | parallelization => "parallelization"
  | interchange => "interchange"
  | vectorization => "vectorization"

/-- The kind with this name; blanks around the name do not matter. -/
def read? (text : String) : Option Kind :=
  let trimmed := String.ofList (Text.trim text.toList)
  all.find? fun k => k.name == trimmed

end Kind

end LoopTuner
