import LoopTuner.Error
import LoopTuner.Kernel.Basic
import LoopTuner.Text.Blank

/-!
Reading a kernel: one operation per line, as `<id> <label> <loop>=<extent>...`. A `#` starts a
comment, and lines without an operation are skipped. The first line at fault decides the error, and
within a line the first word at fault.
-/

namespace LoopTuner.Kernel

open Text

/-- What is wrong with the line of an operation. -/
inductive LineFault where
  | tooShort (line : String)
  | unknownLabel (label : String)
  | noExtent (word : String)
  | noLoopName (word : String)
  | badExtent (loop : String) (fault : Numeral.Fault)
  | zeroExtent (loop : String)
  | repeatedLoop (loop id : String)
  | noLoops (id : String)
  deriving DecidableEq

/-- What is wrong with the text of a kernel. -/
inductive ReadError where
  | line (number : Nat) (fault : LineFault)
  | repeatedOperation (number : Nat) (id : String)
  | noOperations
  deriving DecidableEq

def LineFault.toError : LineFault → Error
  | .tooShort line =>
    .ofCause (.reported ("expected `<id> <label> <loop>=<extent>...`, got `" ++ line ++ "`"))
  | .unknownLabel label => .ofCause (.unknownLabel label)
  | .noExtent word => .ofCause (.reported ("expected `<loop>=<extent>`, got `" ++ word ++ "`"))
  | .noLoopName word => .ofCause (.reported ("loop name is missing in `" ++ word ++ "`"))
  | .badExtent loop fault => ⟨[.extent loop], .numeral fault⟩
  | .zeroExtent loop => .ofCause (.reported ("loop `" ++ loop ++ "` has zero extent"))
  | .repeatedLoop loop id =>
    .ofCause (.reported ("loop `" ++ loop ++ "` is declared twice in `" ++ id ++ "`"))
  | .noLoops id => .ofCause (.reported ("operation `" ++ id ++ "` has no loops"))

def ReadError.toError : ReadError → Error
  | .line number fault => fault.toError.within (.line number)
  | .repeatedOperation number id =>
    .ofCause (.reported ("line " ++ toString number ++ ": operation `" ++ id ++
      "` is declared twice"))
  | .noOperations => .ofCause (.reported "kernel has no operations")

/-- Reads the word of a loop into its name and extent. -/
def readLoop (word : List Char) : Except LineFault (String × Nat) :=
  match cutOnce '=' word with
  | none => .error (.noExtent (String.ofList word))
  | some ([], _) => .error (.noLoopName (String.ofList word))
  | some (name, extent) =>
    match Numeral.readWord extent with
    | .error fault => .error (.badExtent (String.ofList name) fault)
    | .ok 0 => .error (.zeroExtent (String.ofList name))
    | .ok extent => .ok (String.ofList name, extent)

/-- Reads the words of the loops that follow those named in `earlier`. -/
def readLoops (id : String) : List String → List (List Char) → Except LineFault (List (String × Nat))
  | _, [] => .ok []
  | earlier, word :: words =>
    match readLoop word with
    | .error fault => .error fault
    | .ok (name, extent) =>
      if name ∈ earlier then .error (.repeatedLoop name id)
      else match readLoops id (name :: earlier) words with
        | .error fault => .error fault
        | .ok rest => .ok ((name, extent) :: rest)

/-- Declares the loops; only the last one can be a reduction. -/
def declareLoops (hasReduction : Bool) : List (String × Nat) → List Loop
  | [] => []
  | [(name, extent)] => [.declare name extent hasReduction]
  | (name, extent) :: rest => .declare name extent false :: declareLoops hasReduction rest

/-- Reads a line that is neither blank nor a comment. -/
def readNest (line : List Char) : Except LineFault Nest :=
  match words line with
  | id :: label :: loops =>
    match OpClass.ofLabel? (String.ofList label) with
    | none => .error (.unknownLabel (String.ofList label))
    | some opClass =>
      match readLoops (String.ofList id) [] loops with
      | .error fault => .error fault
      | .ok [] => .error (.noLoops (String.ofList id))
      | .ok declared =>
        .ok ⟨String.ofList id, opClass, declareLoops opClass.hasReduction declared⟩
  | _ => .error (.tooShort (String.ofList line))

/-- The part of a line before its comment, without the blanks around it. -/
def code (line : List Char) : List Char := trim (before '#' line)

/-- Reads the lines from the given number on, after operations named in `earlier`. -/
def readLines : Nat → List String → List (List Char) → Except ReadError (List Nest)
  | _, _, [] => .ok []
  | number, earlier, line :: rest =>
    if code line = [] then readLines (number + 1) earlier rest
    else match readNest (code line) with
      | .error fault => .error (.line number fault)
      | .ok nest =>
        if nest.id ∈ earlier then .error (.repeatedOperation number nest.id)
        else match readLines (number + 1) (nest.id :: earlier) rest with
          | .error e => .error e
          | .ok nests => .ok (nest :: nests)

/-- Reads a kernel from characters. -/
def readChars (text : List Char) : Except ReadError Kernel :=
  match readLines 1 [] (lines text) with
  | .error e => .error e
  | .ok [] => .error .noOperations
  | .ok nests => .ok ⟨nests⟩

/-- Reads a kernel. -/
def read (text : String) : Except ReadError Kernel := readChars text.toList

end LoopTuner.Kernel
