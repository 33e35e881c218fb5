import LoopTuner.Command.Status
import LoopTuner.Shell.Expansion
import LoopTuner.Shell.Format
import LoopTuner.Shell.Reader
import LoopTuner.Shell.Toolbox

/-!
Commands of the shell itself that run no other command: they read and change its state.
-/

namespace LoopTuner.Shell.Builtin

/-- Ends the command with a message. -/
def refuse (name text : String) : Run Unit := do
  complain (name ++ ": " ++ text)
  setStatus 2

/-- Ends the shell with a message; so do the commands that POSIX calls special. -/
def refuseAll (name text : String) : Run Unit := giveUp (name ++ ": " ++ text)

def illegalNumber (b : Bytes) : String := "Illegal number: " ++ Bytes.text b

def echo (arguments : List Bytes) : Run Unit := do
  if (← get).stream 1 = .closed then
    complain "echo: echo: I/O error"
    setStatus 1
  else
    write 1 (echoBytes arguments)
    setStatus 0

def printf (arguments : List Bytes) : Run Unit := do
  match arguments with
  | [] => refuse "printf" "usage: printf format [arg ...]"
  | format :: arguments =>
    if format == bytesOf "--" && !arguments.isEmpty then
      let (output, complaints) :=
        printAll (arguments.length + 1) (arguments.headD []) (arguments.drop 1)
      finish output complaints
    else
      let (output, complaints) := printAll (arguments.length + 1) format arguments
      finish output complaints
where
  finish (output : Bytes) (complaints : List String) : Run Unit := do
    for text in complaints do complain ("printf: " ++ text)
    write 1 output
    setStatus (if complaints.isEmpty then 0 else 1)

def test (name : String) (arguments : List Bytes) : Run Unit := do
  match Condition.judge (← get).files arguments with
  | .ok verdict => setStatus (if verdict then 0 else 1)
  | .error text => refuse name text

/-- The test whose arguments end with a closing bracket. -/
def bracket (arguments : List Bytes) : Run Unit :=
  match arguments.getLast? with
  | some last =>
    if last == bytesOf "]" then test "[" arguments.dropLast else refuse "[" "missing ]"
  | none => refuse "[" "missing ]"

def exit (arguments : List Bytes) : Run Unit := do
  match arguments with
  | [] => halt (.exit (← get).status)
  | b :: _ =>
    match natOf? b with
    | some n => halt (.exit (n % 256))
    | none => refuseAll "exit" (illegalNumber b)

def leaveFunction (arguments : List Bytes) : Run Unit := do
  match arguments with
  | [] => halt (.leaveFunction (← get).status)
  | b :: _ =>
    match natOf? b with
    | some n => halt (.leaveFunction n)
    | none => refuseAll "return" (illegalNumber b)

/-- Leaves or continues one of the open loops. -/
def leaveLoop (name : String) (stop : Nat → Stop) (arguments : List Bytes) : Run Unit := do
  let loops := (← get).loops
  let leave (n : Nat) : Run Unit := do
    setStatus 0
    if loops != 0 then halt (stop (min n loops))
  match arguments with
  | [] => leave 1
  | b :: _ =>
    match natOf? b with
    | some (n + 1) => leave (n + 1)
    | _ => refuseAll name (illegalNumber b)

/-! ## Signals -/

/-- The number of a signal that is named or numbered. -/
def signalNumber (text : String) : Option Nat :=
  match text.toNat? with
  | some n => if n ≤ 64 then some n else none
  | none =>
    let upper := text.map Char.toUpper
    if upper = "EXIT" then some 0
    else
      (Command.Status.signalNames.findIdx? (· == upper)).map (· + 1)

/-- Signals that do nothing unless they are asked for. -/
def isIgnored (signal : Nat) : Bool :=
  [0, 17, 18, 20, 21, 22, 23, 28].contains signal

/-- Sends a signal to a process. `onTrap` runs the commands that the shell has set for it. -/
def sendSignal (onTrap : Bytes → Run Unit) (signal : Nat) (target : Bytes) : Run Unit := do
  let s ← get
  match intOf? target with
  | none => refuse "kill" (illegalNumber target)
  | some n =>
    let self := n = s.process ∨ n = 0 ∨ n = -s.process
    if self then
      setStatus 0
      match s.traps.lookup (toString signal) with
      | some commands => onTrap commands
      | none =>
        if signal = 19 then halt .endless
        else if !isIgnored signal then halt (.killed s.process signal)
    else if 4242 ≤ n ∧ n < s.process then
      setStatus 0
      if !isIgnored signal then halt (.killed n.toNat signal)
    else if s.lastJob = some n.toNat ∧ !s.pending.isEmpty then
      modify fun s => { s with pending := s.pending.drop 1, jobStatus := 128 + signal }
      setStatus 0
    else
      complain "kill: No such process\n"
      setStatus 1

def kill (onTrap : Bytes → Run Unit) (arguments : List Bytes) : Run Unit := do
  let send (signal : Nat) (targets : List Bytes) : Run Unit := do
    if targets.isEmpty then usage
    for target in targets do
      if ← isRunning then sendSignal onTrap signal target
  match arguments with
  | [] => usage
  | first :: rest =>
    match Bytes.chars first with
    | ['-', '-'] => send 15 rest
    | ['-', 'l'] =>
      let name (n : Nat) : String := (Command.Status.signalName? n).getD (toString n)
      let names := match rest.head?.bind natOf? with
        | some n => [name (if 128 < n then n - 128 else n)]
        | none => "0" :: (List.range 31).map fun n => name (n + 1)
      write 1 (bytesOf (String.join (names.map (· ++ "\n"))))
      setStatus 0
    | '-' :: 's' :: more =>
      let (named, targets) := match more with
        | [] => (Bytes.text (rest.headD []), rest.drop 1)
        | more => (String.ofList more, rest)
      match signalNumber (String.ofList ('s' :: more)), signalNumber named with
      | some n, _ => send n rest
      | none, some n => send n targets
      | none, none => refuse "kill" ("invalid signal number or name: " ++ named)
    | '-' :: name =>
      match signalNumber (String.ofList name) with
      | some n => send n rest
      | none => refuse "kill" ("Illegal option -" ++ String.ofList (name.take 1))
    | _ => send 15 arguments
where
  usage : Run Unit :=
    refuse "kill" ("Usage: kill [-s sigspec | -signum | -sigspec] [pid | job]... or\n" ++
      "kill -l [exitstatus]")

/-- Sets or removes the commands that are run on signals. -/
def trap (arguments : List Bytes) : Run Unit := do
  let set (action : Option Bytes) (signals : List Bytes) : Run Unit := do
    setStatus 0
    for b in signals do
      match signalNumber (Bytes.text b) with
      | some n =>
        let name := toString n
        modify fun s => { s with
          traps := (action.map fun a => (name, a)).toList ++ s.traps.filter (·.1 != name) }
      | none =>
        write 2 (bytesOf ("trap: " ++ Bytes.text b ++ ": bad trap\n"))
        setStatus 1
  match arguments with
  | [] => setStatus 0
  | [b] => if b == bytesOf "--" then setStatus 0 else set none [b]
  | action :: signals =>
    if action == bytesOf "-" || (natOf? action).isSome then
      set none (if action == bytesOf "-" then signals else arguments)
    else set (some action) signals

/-! ## Variables -/

def isName (name : String) : Bool :=
  name.toList.all isNameChar && name.toList.head?.any isNameStart

/-- Gives a variable a value unless it is constant. -/
def assign (prelude name : String) (value : Bytes) : Run Unit := do
  if (← get).constants.contains name then giveUp (prelude ++ name ++ ": is read only")
  else modify fun s => s.setVariable name value

/-- An argument that names a variable, with a value behind an equals sign or none. -/
def splitAssignment (b : Bytes) : String × Option Bytes :=
  let equals := byte '='
  match b.dropWhile (· != equals) with
  | [] => (Bytes.text b, none)
  | _ :: value => (Bytes.text (b.takeWhile (· != equals)), some value)

/-- Marks variables, after giving them values. -/
def declare (name : String) (mark : String → Run Unit) (arguments : List Bytes) : Run Unit := do
  setStatus 0
  for b in arguments do
    if ← isRunning then
      let (parameter, value) := splitAssignment b
      if Bytes.chars b == ['-', 'p'] then pure ()
      else if !isName parameter then refuseAll name (parameter ++ ": bad variable name")
      else
        match value with
        | some value => assign (name ++ ": ") parameter value
        | none => pure ()
        if ← isRunning then mark parameter

def exportNames (arguments : List Bytes) : Run Unit :=
  declare "export" (fun v => modify fun s => { s with exported := v :: s.exported }) arguments

def protectNames (arguments : List Bytes) : Run Unit :=
  declare "readonly" (fun v => modify fun s => { s with constants := v :: s.constants }) arguments

/-- Keeps the values of variables until the function ends. -/
def localNames (arguments : List Bytes) : Run Unit := do
  if (← get).frames.isEmpty then refuseAll "local" "not in a function"
  else
    for b in arguments do
      let (parameter, _) := splitAssignment b
      modify fun s => match s.frames with
        | frame :: frames =>
          { s with frames := ((parameter, s.value? parameter) :: frame) :: frames }
        | [] => s
    declare "local" (fun _ => pure ()) arguments

def unset (arguments : List Bytes) : Run Unit := do
  setStatus 0
  let functions := arguments.head? == some (bytesOf "-f")
  for b in arguments do
    let name := Bytes.text b
    match name.toList with
    | ['-', 'v'] | ['-', 'f'] => pure ()
    | '-' :: c :: _ => refuseAll "unset" ("Illegal option -" ++ String.ofList [c])
    | _ =>
      if functions then
        modify fun s => { s with functions := s.functions.filter (·.1 != name) }
      else if (← get).constants.contains name then refuseAll "unset" (name ++ ": is read only")
      else modify fun s => s.unsetVariable name

def shift (arguments : List Bytes) : Run Unit := do
  let count := (← get).positional.length
  let drop (n : Nat) : Run Unit :=
    if count < n then refuseAll "shift" "can't shift that many"
    else do
      modify fun s => { s with positional := s.positional.drop n }
      setStatus 0
  match arguments with
  | [] => drop 1
  | b :: _ =>
    match natOf? b with
    | some n => drop n
    | none => refuseAll "shift" (illegalNumber b)

/-- Sets one option of the shell. -/
def setOption (on : Bool) (letter : Char) : Run Unit :=
  match letter with
  | 'e' => modify fun s => { s with stopsOnFailure := on }
  | 'u' => modify fun s => { s with refusesUnset := on }
  | c =>
    if "abCEfIimnsVvx".toList.contains c then pure ()
    else refuseAll "set" ("Illegal option -" ++ String.ofList [c])

/-- Sets an option by its long name. -/
def setLongOption (on : Bool) (name : String) : Run Unit :=
  if name = "errexit" then setOption on 'e'
  else if name = "nounset" then setOption on 'u'
  else if ["noglob", "noexec", "xtrace", "verbose", "noclobber", "allexport"].contains name then pure ()
  else refuseAll "set" ("Illegal option -o " ++ name)

/-- Sets options and positional parameters. -/
def set : List Bytes → Run Unit
  | [] => setStatus 0
  | b :: rest => do
    let replace (values : List Bytes) : Run Unit :=
      modify fun s => { s with positional := values }
    setStatus 0
    match Bytes.chars b with
    | ['-', '-'] => replace rest
    | ['-'] => if rest.isEmpty then pure () else replace rest
    | [sign, 'o'] =>
      if sign == '-' || sign == '+' then
        match rest with
        | name :: rest =>
          setLongOption (sign == '-') (Bytes.text name)
          if ← isRunning then set rest
        | [] => pure ()
      else replace (b :: rest)
    | '-' :: letters =>
      for c in letters do if ← isRunning then setOption true c
      if ← isRunning then set rest
    | '+' :: letters =>
      for c in letters do if ← isRunning then setOption false c
      if ← isRunning then set rest
    | _ => replace (b :: rest)

/-! ## Input -/

/-- Reads a line with its escapes: an escaped byte is quoted and an escaped line end is dropped. -/
def readRecord (raw : Bool) : Nat → Bytes → List Item × Bool × Bytes
  | 0, rest => ([], false, rest)
  | _, [] => ([], false, [])
  | fuel + 1, b :: rest =>
    if b == newline then ([], true, rest)
    else if b == byte '\\' && !raw then
      match rest with
      | [] => ([], false, [])
      | c :: rest =>
        let (items, ended, rest) := readRecord raw fuel rest
        (if c == newline then items else .glyph c true true :: items, ended, rest)
    else
      let (items, ended, rest) := readRecord raw fuel rest
      (.glyph b false true :: items, ended, rest)

/-- Distributes a record over names. The last name takes what is left, without blanks at its ends. -/
def distribute (separators : Bytes) : List String → List Item → List (String × Bytes)
  | [], _ => []
  | [name], items =>
    let isBlank (i : Item) : Bool := match i with
      | .glyph b quoted _ => !quoted && separators.contains b && isBlankByte b
      | _ => false
    let trimmed := ((items.dropWhile isBlank).reverse.dropWhile isBlank).reverse
    [(name, (joinItems trimmed).map (·.1))]
  | name :: names, items =>
    let isSeparator (i : Item) : Bool := match i with
      | .glyph b quoted _ => !quoted && separators.contains b
      | _ => false
    let isBlank (i : Item) : Bool := isSeparator i && match i with
      | .glyph b _ _ => isBlankByte b
      | _ => false
    let items := items.dropWhile isBlank
    let field := items.takeWhile fun i => !isSeparator i
    let rest := (items.dropWhile fun i => !isSeparator i).dropWhile isBlank
    let rest := match rest with
      | i :: more => if isSeparator i && !isBlank i &&
          !((items.dropWhile fun i => !isSeparator i).head?.any isBlank) then more else rest
      | [] => []
    (name, (joinItems field).map (·.1)) :: distribute separators names rest

def read (arguments : List Bytes) : Run Unit := do
  let raw := arguments.any fun b => Bytes.chars b == ['-', 'r']
  let names := (arguments.filter fun b => b.head? != some (byte '-')).map Bytes.text
  if names.isEmpty then refuse "read" "arg count"
  else
    let s ← get
    match s.stream 0 with
    | .input buffer =>
      let contents := s.contents buffer
      let (items, ended, rest) := readRecord raw (contents.length + 1) contents
      modify fun s => { s with buffers := s.buffers.modify buffer fun _ => [rest] }
      for (name, value) in distribute s.separators names items do assign "read: " name value
      setStatus (if ended then 0 else 1)
    | _ =>
      for name in names do assign "read: " name []
      setStatus 1

/-! ## Other commands -/

def directory (arguments : List Bytes) : Run Unit := do
  match arguments.head? with
  | none => setStatus 0
  | some b =>
    if ["/", ".", "..", "/tmp", "./", "-", "/dev", "/root", "/bin", "/usr"].contains (Bytes.text b) then
      setStatus 0
    else refuse "cd" ("can't cd to " ++ Bytes.text b)

/-- Waits for the commands in the background. -/
def wait (arguments : List Bytes) : Run Unit := do
  let s ← get
  let finish := s.pending.foldl (fun n p => max n p.finish) s.elapsed
  modify fun s => s.advance (finish - s.elapsed)
  match arguments with
  | [] => setStatus 0
  | b :: _ => setStatus (if natOf? b == s.lastJob && s.lastJob.isSome then s.jobStatus else 127)

def specialNames : List String :=
  [".", ":", "break", "continue", "eval", "exec", "exit", "export", "readonly", "return", "set",
    "shift", "times", "trap", "unset"]

def otherNames : List String :=
  ["[", "alias", "bg", "cd", "command", "echo", "false", "fg", "getopts", "hash", "jobs", "kill",
    "local", "printf", "pwd", "read", "test", "true", "type", "ulimit", "umask", "unalias", "wait"]

def keywords : List String :=
  ["!", "case", "do", "done", "elif", "else", "esac", "fi", "for", "if", "in", "then", "until",
    "while", "\x7b", "\x7d"]

/-- What a name stands for, in words or as the name by which it is found. -/
def describe (brief : Bool) (name : String) : Run (Option String) := do
  let isFunction := ((← get).functions.lookup name).isSome
  let path := "/usr/bin/" ++ name
  if keywords.contains name then return some (if brief then name else name ++ " is a shell keyword")
  else if isFunction then return some (if brief then name else name ++ " is a shell function")
  else if specialNames.contains name then
    return some (if brief then name else name ++ " is a special shell builtin")
  else if otherNames.contains name then
    return some (if brief then name else name ++ " is a shell builtin")
  else if (Toolbox.find? name).isSome || ["sh", "env", "timeout", "xargs"].contains name then
    return some (if brief then path else name ++ " is " ++ path)
  else return none

def describeAll (brief : Bool) (arguments : List Bytes) : Run Unit := do
  setStatus 0
  for b in arguments do
    match ← describe brief (Bytes.text b) with
    | some text => write 1 (bytesOf (text ++ "\n"))
    | none =>
      if !brief then write 1 (bytesOf (Bytes.text b ++ ": not found\n"))
      setStatus 127

/-- The commands by name. -/
def find? (name : String) : Option (List Bytes → Run Unit) :=
  match name with
  | ":" | "true" | "times" | "hash" | "alias" | "unalias" | "jobs" | "ulimit" | "getopts" =>
    some fun _ => setStatus 0
  | "false" => some fun _ => setStatus 1
  | "echo" => some echo
  | "printf" => some printf
  | "test" => some (test "test")
  | "[" => some bracket
  | "exit" => some exit
  | "return" => some leaveFunction
  | "break" => some (leaveLoop name .leaveLoop)
  | "continue" => some (leaveLoop name .nextTurn)
  | "trap" => some trap
  | "export" => some exportNames
  | "readonly" => some protectNames
  | "local" => some localNames
  | "unset" => some unset
  | "shift" => some shift
  | "set" => some set
  | "read" => some read
  | "cd" => some directory
  | "pwd" => some fun _ => do write 1 (bytesOf "/\n"); setStatus 0
  | "umask" => some fun arguments => do
    if arguments.isEmpty then write 1 (bytesOf "0022\n")
    setStatus 0
  | "wait" => some wait
  | "type" => some (describeAll false)
  | "fg" | "bg" => some fun _ => refuse name "No current job"
  | _ => none

end LoopTuner.Shell.Builtin
