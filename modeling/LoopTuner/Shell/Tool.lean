import LoopTuner.Shell.Bytes

/-!
Tools: the commands that read bytes and write bytes. A tool is a function of its arguments, of the
bytes on its input and of the files by name.
-/

namespace LoopTuner.Shell

abbrev Files := List (String × Bytes)

def Files.find? (files : Files) (name : String) : Option Bytes :=
  (List.find? (fun f => f.1 == name) files).map (·.2)

/-- The files with new contents for one of them. -/
def Files.put (files : Files) (name : String) (contents : Bytes) : Files :=
  (name, contents) :: List.filter (fun f => f.1 != name) files

def Files.erase (files : Files) (name : String) : Files := List.filter (fun f => f.1 != name) files

/-- The name of a file without a leading reference to the current directory. -/
def plainName (name : String) : String :=
  match name.toList with
  | '.' :: '/' :: rest => String.ofList rest
  | _ => name

structure Job where
  name : String
  arguments : List Bytes
  input : Bytes
  files : Files

structure Result where
  output : Bytes
  diagnostics : Bytes
  status : Nat
  /-- Whether the tool has read its input. -/
  reads : Bool
  files : Files
  /-- Milliseconds that the tool takes. -/
  elapsed : Nat

abbrev Tool := Job → Result

namespace Job

def done (j : Job) (output : Bytes) (status : Nat) : Result :=
  ⟨output, [], status, true, j.files, 0⟩

/-- A complaint, with the name of the tool before it. -/
def complain (j : Job) (status : Nat) (text : String) : Result :=
  ⟨[], bytesOf (j.name ++ ": " ++ text ++ "\n"), status, false, j.files, 0⟩

def hint (j : Job) : String := "\nTry '" ++ j.name ++ " --help' for more information."

/-- Opens a file for reading. -/
def open? (j : Job) (name : String) : Except String Bytes :=
  if name = "-" ∨ name = "/dev/stdin" then .ok j.input
  else if name = "/dev/null" then .ok []
  else if name = "/dev/zero" then .ok (List.replicate (Nat.pow 2 20) 0)
  else
    match j.files.find? (plainName name) with
    | some contents => .ok contents
    | none =>
      if ["/", ".", "..", "./", "/tmp"].contains name then .error "Is a directory"
      else .error "No such file or directory"

/-- Opens the named files, or the input if there are none. -/
def openAll (j : Job) (names : List Bytes) : List (String × Except String Bytes) :=
  if names.isEmpty then [("-", .ok j.input)]
  else names.map fun n => (Bytes.text n, j.open? (Bytes.text n))

/-- Applies a function to the contents of the files one after another. -/
def mapFiles (j : Job) (names : List Bytes) (f : String → Bytes → Bytes) : Result :=
  let opened := j.openAll names
  let output := opened.flatMap fun (name, contents) =>
    match contents with
    | .ok b => f name b
    | .error _ => []
  let complaints := opened.filterMap fun (name, contents) =>
    match contents with
    | .ok _ => none
    | .error text => some (j.name ++ ": " ++ name ++ ": " ++ text ++ "\n")
  ⟨output, bytesOf (String.join complaints), if complaints.isEmpty then 0 else 1, true, j.files, 0⟩

/-- All files in one. -/
def gather (j : Job) (names : List Bytes) : Bytes :=
  (j.openAll names).flatMap fun (_, contents) =>
    match contents with
    | .ok b => b
    | .error _ => []

end Job

/-- Options, those with a value among them, and operands. -/
structure Options where
  options : List (Char × Bytes)
  operands : List Bytes

def Options.has (o : Options) (c : Char) : Bool := o.options.any (·.1 == c)

/-- The last value of an option. -/
def Options.value? (o : Options) (c : Char) : Option Bytes :=
  (o.options.reverse.find? (·.1 == c)).map (·.2)

def Options.values (o : Options) (c : Char) : List Bytes :=
  (o.options.filter (·.1 == c)).map (·.2)

def Options.nat (o : Options) (c : Char) : Option Nat := (o.value? c).bind natOf?

/-- Reads the letters of one argument. The result tells the options and whether the last one takes
the next argument as its value. -/
def readLetters (flags valued : List Char) :
    List Char → Except Char (List (Char × Bytes) × Option Char)
  | [] => .ok ([], none)
  | c :: rest =>
    if valued.contains c then
      if rest.isEmpty then .ok ([], some c)
      else .ok ([(c, rest.map byte)], none)
    else if flags.contains c then
      match readLetters flags valued rest with
      | .error c => .error c
      | .ok (options, pending) => .ok ((c, []) :: options, pending)
    else .error c

/-- Separates options from operands. Options may stand after operands, and two dashes end them. -/
def readOptions (flags valued : List Char) : List Bytes → Except Char Options
  | [] => .ok ⟨[], []⟩
  | argument :: rest =>
    match Bytes.chars argument with
    | ['-', '-'] => .ok ⟨[], rest⟩
    | '-' :: c :: more =>
      match readLetters flags valued (c :: more) with
      | .error c => .error c
      | .ok (options, none) =>
        match readOptions flags valued rest with
        | .error c => .error c
        | .ok others => .ok ⟨options ++ others.options, others.operands⟩
      | .ok (options, some c) =>
        match rest with
        | [] => .error c
        | value :: rest =>
          match readOptions flags valued rest with
          | .error c => .error c
          | .ok others => .ok ⟨options ++ (c, value) :: others.options, others.operands⟩
    | _ =>
      match readOptions flags valued rest with
      | .error c => .error c
      | .ok others => .ok ⟨others.options, argument :: others.operands⟩

/-- Runs a tool with its options, or complains about the first one that it does not know. -/
def Job.withOptions (j : Job) (flags valued : String) (status : Nat) (run : Options → Result) :
    Result :=
  match readOptions flags.toList valued.toList j.arguments with
  | .ok options => run options
  | .error c => j.complain status ("invalid option -- '" ++ String.ofList [c] ++ "'" ++ j.hint)

end LoopTuner.Shell
