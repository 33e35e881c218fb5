import LoopTuner.Command.Report
import LoopTuner.Shell.Builtin

/-!
Running scripts. Commands run one after another, the stages of a pipeline too; those run side by side
in time, so a pipeline takes as long as its slowest stage. The fuel bounds the nesting of commands,
and a loop that takes too many turns counts as endless.
-/

namespace LoopTuner.Shell

/-- How often a loop may turn before it counts as endless. -/
def mostTurns : Nat := 100000

/-- How deep commands may be nested before the shell has no room left. -/
def deepestNesting : Nat := 12000

/-- Settles what a body has left of a `break` or `continue`; the result tells whether the loop goes
on. -/
def settleTurn : Run Bool := do
  match (← get).stop with
  | none => return true
  | some (.leaveLoop n) =>
    modify fun s => { s with stop := if n ≤ 1 then none else some (.leaveLoop (n - 1)) }
    return false
  | some (.nextTurn n) =>
    modify fun s => { s with stop := if n ≤ 1 then none else some (.nextTurn (n - 1)) }
    return n ≤ 1
  | some _ => return false

/-- Turns a loop while its condition holds; its status is that of its last turn. -/
def turn (condition : Run Bool) (body : Run Unit) : Nat → Nat → Run Unit
  | 0, _ => halt .endless
  | turns + 1, last => do
    let holds ← condition
    if !(← settleTurn) then setStatus last
    else if holds then
      body
      if ← settleTurn then turn condition body turns (← get).status
    else setStatus last

/-- Runs a body once for each value. -/
def turnEach (name : String) (body : Run Unit) : List Bytes → Run Unit
  | [] => pure ()
  | value :: rest => do
    Builtin.assign "" name value
    if ← isRunning then
      body
      if ← settleTurn then turnEach name body rest

/-- Runs a loop inside those that are open already. -/
def inLoop (body : Run Unit) : Run Unit := do
  let loops := (← get).loops
  modify fun s => { s with loops := loops + 1 }
  body
  modify fun s => { s with loops := loops }

/-- Runs a command whose failure is no reason to stop. -/
def asTest (body : Run Unit) : Run Unit := do
  let tested := (← get).tested
  modify fun s => { s with tested := true }
  body
  modify fun s => { s with tested := tested }

/-- Stops after a failure if the shell is to. -/
def heedFailure : Run Unit := do
  let s ← get
  if s.stopsOnFailure && !s.tested && s.status != 0 && s.stop.isNone then halt (.exit s.status)

/-- Runs a body and undoes its redirections. -/
def keepingStreams (body : Run Unit) : Run Unit := do
  let streams := (← get).streams
  body
  modify fun s => { s with streams := streams }

/-- What the shell says of a process that a signal has ended. -/
def epitaph (signal : Nat) : String :=
  match signal with
  | 1 => "Hangup" | 3 => "Quit" | 4 => "Illegal instruction" | 5 => "Trace/breakpoint trap"
  | 6 => "Aborted" | 7 => "Bus error" | 8 => "Floating point exception" | 9 => "Killed"
  | 10 => "User defined signal 1" | 11 => "Segmentation fault" | 12 => "User defined signal 2"
  | 14 => "Alarm clock" | 15 => "Terminated" | 16 => "Stack fault" | 24 => "CPU time limit exceeded"
  | 25 => "File size limit exceeded" | 26 => "Virtual timer expired"
  | 27 => "Profiling timer expired" | 29 => "I/O possible" | 30 => "Power failure"
  | 31 => "Bad system call"
  | n => "Real-time signal " ++ toString (n - 34)

/-- Opens a file for output; the result tells where it leads, or why it cannot be opened. -/
def openOutput (s : State) (append : Bool) (name : String) : Except String (Stream × Files) :=
  if name = "/dev/null" then .ok (.nowhere, s.files)
  else if name = "/dev/stdout" then .ok (s.stream 1, s.files)
  else if name = "/dev/stderr" then .ok (s.stream 2, s.files)
  else
    let plain := plainName name
    let isDirectory := ["/", ".", "..", "/tmp", "/dev", ""].contains plain
    let inside := match plain.splitOn "/" with
      | [_] => true
      | ["", "tmp", _] => true
      | _ => false
    if isDirectory then
      .error (if plain.isEmpty then "Directory nonexistent" else "Is a directory")
    else if !inside then .error "Directory nonexistent"
    else .ok (.file plain, if append && (s.files.find? plain).isSome then s.files else s.files.put plain [])

/-- Makes a stream lead to a target that has been expanded. The result tells whether that worked. -/
def applyRedirection (number : Nat) (target : Target) (text : Bytes) : Run Bool := do
  let s ← get
  let name := Bytes.text text
  match target with
  | .document _ =>
    let (buffer, s) := s.addBuffer text
    set (s.setStream number (.input buffer))
    return true
  | .input _ =>
    if name = "/dev/null" then
      set (s.setStream number .nowhere)
      return true
    else if name = "/dev/stdin" then
      set (s.setStream number (s.stream 0))
      return true
    else
      match s.files.find? (plainName name) with
      | some contents =>
        let (buffer, s) := s.addBuffer contents
        set (s.setStream number (.input buffer))
        return true
      | none =>
        if ["/", ".", "..", "/tmp"].contains name then
          set (s.setStream number .nowhere)
          return true
        complain ("cannot open " ++ name ++ ": No such file")
        return false
  | .output append _ =>
    match openOutput s append name with
    | .ok (stream, files) =>
      set ({ s with files := files }.setStream number stream)
      return true
    | .error reason =>
      complain ("cannot create " ++ name ++ ": " ++ reason)
      return false
  | .duplicate _ =>
    if name = "-" then
      set (s.setStream number .closed)
      return true
    else
      match name.toNat? with
      | none =>
        giveUp "Syntax error: Bad fd number"
        return false
      | some source =>
        if s.stream source = .closed then
          complain (name ++ ": Bad file descriptor")
          return false
        else
          set (s.setStream number (s.stream source))
          return true

/-- Runs a tool on the input that the shell has. -/
def runTool (tool : Tool) (name : String) (arguments : List Bytes) : Run Unit := do
  let s ← get
  let (input, drained) := s.drain 0
  let result := tool ⟨name, arguments, input, s.files⟩
  let piped := match s.stream 1 with
    | .output buffer => buffer ≥ 3
    | _ => false
  if name = "yes" && !piped then halt .endless
  else
    set { (if result.reads then drained else s) with files := result.files }
    write 1 result.output
    write 2 result.diagnostics
    modify fun s => s.advance result.elapsed
    setStatus result.status

/-- The parts of a program's output that lead out of a subshell in the background. -/
def redirectAll (s : State) : State × List (Stream × Nat) :=
  let targets := (s.streams.map (·.2)).eraseDups.filter fun t => match t with
    | .output _ | .file _ => true
    | _ => false
  targets.foldl (fun (s, moved) target =>
    let (buffer, s) := s.addBuffer []
    ({ s with streams := s.streams.map fun (n, t) => (n, if t = target then .output buffer else t) },
      (target, buffer) :: moved)) (s, [])

/-- Runs a body in the background. What it writes appears once it is done; if it takes no time, that
is at once. -/
def inBackground (body : Run Unit) : Run Unit := do
  let outer ← get
  let (inner, moved) := redirectAll outer
  set (inner.setStream 0 .nowhere)
  body
  let inner ← get
  let job := (outer.lastJob.getD outer.process) + 1
  let writes := moved.map fun (target, buffer) => (target, inner.contents buffer)
  let changed := inner.files.filter fun f => outer.files.find? f.1 != some f.2
  let finish := match inner.stop with
    | some .endless => Toolbox.forever
    | _ => inner.elapsed
  let stop := match inner.stop with
    | some (.killed p n) => some (.killed p n)
    | _ => none
  set { outer with
    buffers := inner.buffers
    pending := ⟨finish, writes, changed⟩ :: outer.pending
    lastJob := some job
    jobStatus := inner.status
    status := 0
    stop := stop }
  modify fun s => s.advance 0

/-- Runs each stage on the output of the one before. The result is the time when the last is done. -/
def runStages (run : Command → Run Unit) (start : Nat) : Bool → Nat → List Command → Run Nat
  | _, latest, [] => return latest
  | first, latest, stage :: rest => do
    let outer ← get
    let (buffer, s) := outer.addBuffer []
    let s := { s with elapsed := start, loops := 0, traps := [] }
    let input := outer.buffers.size - 1
    let s := if first then s else s.setStream 0 (.input input)
    set (if rest.isEmpty then s else s.setStream 1 (.output buffer))
    run stage
    modify outer.afterSubshell
    let latest := max latest (← get).elapsed
    if ← isRunning then
      -- The output of a stage is the newest buffer when the next one begins.
      let s ← get
      let (_, s) := s.addBuffer (s.contents buffer)
      set s
      runStages run start false latest rest
    else return latest

/-- Splits a list into rows of the given length. -/
def rowsOf {α : Type} (length : Nat) : Nat → List α → List (List α)
  | 0, _ => []
  | _, [] => []
  | fuel + 1, xs => xs.take length :: rowsOf length fuel (xs.drop length)

/-- The lists of arguments that `xargs` adds to its command. -/
def argumentRows (arguments : List Bytes) (input : Bytes) : List Bytes × List (List Bytes) :=
  let fields := fieldsOf input
  match arguments with
  | first :: rest =>
    match Bytes.chars first with
    | ['-', 'n'] =>
      (rest.drop 1, rowsOf ((rest.head?.bind natOf?).getD 1) (fields.length + 1) fields)
    | '-' :: 'n' :: digits =>
      (rest, rowsOf ((String.ofList digits).toNat?.getD 1) (fields.length + 1) fields)
    | ['-', 'r'] => (rest, if fields.isEmpty then [] else [fields])
    | _ => (arguments, [fields])
  | [] => ([], [fields])

mutual

/-- Runs commands and returns what they write, without the line ends after it. -/
def capture : Nat → List Command → Run Bytes
  | 0, _ => do halt .endless; return []
  | fuel + 1, commands => do
    let outer ← get
    let (buffer, s) := outer.addBuffer []
    set { s.setStream 1 (.output buffer) with loops := 0, traps := [], captured := none }
    runAll fuel commands
    runExitTrap fuel
    let inner ← get
    set (outer.afterSubshell inner)
    modify fun s => { s with status := outer.status, captured := some s.status }
    let bytes := (inner.contents buffer).filter (· != 0)
    return (bytes.reverse.dropWhile (· == newline)).reverse

/-- Makes the streams lead where the redirections say. -/
def redirect : Nat → List Redirection → Run Bool
  | 0, _ => return false
  | _, [] => return true
  | fuel + 1, .mk number target :: rest => do
    let word := match target with
      | .input w | .output _ w | .duplicate w | .document w => w
    let text ← expandText (capture fuel) word
    if !(← isRunning) then return false
    if ← applyRedirection number target text then redirect fuel rest else return false

def runAll : Nat → List Command → Run Unit
  | 0, _ => halt (.killed 4242 11)
  | _, [] => pure ()
  | fuel + 1, command :: rest => do
    runCommand fuel command
    if ← isRunning then runRest fuel rest

/-- Runs the commands that follow, without any more nesting. -/
def runRest : Nat → List Command → Run Unit
  | 0, _ => halt (.killed 4242 11)
  | fuel + 1, commands => do
    for command in commands do
      if ← isRunning then runCommand fuel command

/-- Runs a body with redirections. -/
def runRedirected : Nat → List Redirection → List Command → Run Unit
  | 0, _, _ => halt (.killed 4242 11)
  | fuel + 1, redirections, body =>
    keepingStreams do
      if ← redirect fuel redirections then runAll fuel body
      else if ← isRunning then setStatus 2

def runCommand : Nat → Command → Run Unit
  | 0, _ => halt (.killed 4242 11)
  | fuel + 1, command => do
    match command with
    | .simple line assignments words redirections =>
      modify fun s => { s with remaining := line, captured := none }
      let mut fields : List Bytes := []
      for word in words do
        if ← isRunning then fields := fields ++ (← expandFields (capture fuel) word)
      if ← isRunning then
        runSimple fuel assignments fields redirections
        heedFailure
    | .pipeline true [stage] =>
      asTest (runCommand fuel stage)
      if ← isRunning then setStatus (if (← get).status = 0 then 1 else 0)
    | .pipeline negated stages =>
      let s ← get
      let latest ← runStages (fun c => do runCommand fuel c; runExitTrap fuel) s.elapsed true
        s.elapsed stages
      modify fun s => { s with elapsed := latest }
      if ← isRunning then
        if negated then setStatus (if (← get).status = 0 then 1 else 0) else heedFailure
    | .both first second =>
      asTest (runCommand fuel first)
      if (← isRunning) && (← get).status = 0 then runCommand fuel second
    | .either first second =>
      asTest (runCommand fuel first)
      if (← isRunning) && (← get).status != 0 then runCommand fuel second
    | .background body => inBackground (runCommand fuel body)
    | .group body redirections => runRedirected fuel redirections body
    | .subshell body redirections =>
      let outer ← get
      modify fun s => { s with loops := 0, traps := [] }
      runRedirected fuel redirections body
      runExitTrap fuel
      modify outer.afterSubshell
      heedFailure
    | .choice condition body otherwise redirections =>
      keepingStreams do
        if ← redirect fuel redirections then
          asTest (runAll fuel condition)
          if ← isRunning then
            if (← get).status = 0 then runAll fuel body
            else if otherwise.isEmpty then setStatus 0
            else runAll fuel otherwise
        else if ← isRunning then setStatus 2
    | .loop whileFails condition body redirections =>
      keepingStreams do
        if ← redirect fuel redirections then
          inLoop (turn (do
            asTest (runAll fuel condition)
            return ((← get).status != 0) == whileFails) (runAll fuel body) mostTurns 0)
        else if ← isRunning then setStatus 2
    | .forEach name words body redirections =>
      let mut values : List Bytes := []
      match words with
      | none => values := (← get).positional
      | some words =>
        for word in words do
          if ← isRunning then values := values ++ (← expandFields (capture fuel) word)
      if ← isRunning then
        keepingStreams do
          if ← redirect fuel redirections then
            setStatus 0
            inLoop (turnEach name (runAll fuel body) values)
          else if ← isRunning then setStatus 2
    | .cases word clauses redirections =>
      keepingStreams do
        let text ← expandText (capture fuel) word
        if ← isRunning then
          if ← redirect fuel redirections then
            setStatus 0
            runClauses fuel text clauses
          else if ← isRunning then setStatus 2
    | .function name body =>
      modify fun s => { s with functions := (name, body) :: s.functions.filter (·.1 != name) }
      setStatus 0

/-- Runs the first clause that has a pattern for the text. -/
def runClauses : Nat → Bytes → List (List (List Part) × List Command) → Run Unit
  | 0, _, _ => halt (.killed 4242 11)
  | _, _, [] => pure ()
  | fuel + 1, text, (patterns, body) :: rest => do
    let mut found := false
    for pattern in patterns do
      if !found then
        found := Glob.matchAll (← expandPattern (capture fuel) pattern) text
    if ← isRunning then
      if found then runAll fuel body else runClauses fuel text rest

/-- Runs a simple command whose words are expanded. -/
def runSimple : Nat → List (String × List Part) → List Bytes → List Redirection → Run Unit
  | 0, _, _, _ => halt (.killed 4242 11)
  | fuel + 1, assignments, fields, redirections => do
    let streams := (← get).streams
    let name := fields.headD []
    let isSpecial := Builtin.specialNames.contains (Bytes.text name) &&
      ((← get).functions.lookup (Bytes.text name)).isNone
    let earlier := (← get).bindings
    let exported := (← get).exported
    if ← redirect fuel redirections then
      for (parameter, word) in assignments do
        if ← isRunning then
          let value ← expandText (capture fuel) word
          if ← isRunning then Builtin.assign "" parameter value
          if !fields.isEmpty then modify fun s => { s with exported := parameter :: s.exported }
      if ← isRunning then
        match fields with
        | [] => setStatus ((← get).captured.getD 0)
        | name :: arguments => runCall fuel (Bytes.text name) arguments
      if !fields.isEmpty then
        modify fun s => { s with exported := if assignments.isEmpty then s.exported else exported }
        if !isSpecial then
          for (parameter, _) in assignments do
            modify fun s => match earlier.lookup parameter with
              | some value => s.setVariable parameter value
              | none => s.unsetVariable parameter
    else if ← isRunning then
      setStatus 2
      if isSpecial then halt (.exit 2)
    if fields != [bytesOf "exec"] then modify fun s => { s with streams := streams }

/-- Runs a function, a command of the shell or a program. -/
def runCall : Nat → String → List Bytes → Run Unit
  | 0, _, _ => halt (.killed 4242 11)
  | fuel + 1, name, arguments => do
    let s ← get
    match s.functions.lookup name with
    | some body =>
      if s.frames.length ≥ 1000 then
        giveUp "Maximum function recursion depth (1000) reached"
      else
        set { s with positional := arguments, loops := 0, frames := [] :: s.frames }
        runCommand fuel body
        let inner ← get
        match inner.stop with
        | some (.leaveFunction n) => set { inner with stop := none, status := n }
        | _ => pure ()
        for (parameter, value) in inner.frames.headD [] do
          modify fun s => match value with
            | some value => s.setVariable parameter value
            | none => s.unsetVariable parameter
        modify fun inner =>
          { inner with positional := s.positional, loops := s.loops, frames := s.frames }
    | none => runNamed fuel name arguments

/-- Runs a command of the shell or a program. -/
def runNamed : Nat → String → List Bytes → Run Unit
  | 0, _, _ => halt (.killed 4242 11)
  | fuel + 1, name, arguments => do
    match name with
    | "eval" => runText fuel "eval: " (List.intercalate [32] arguments)
    | "." =>
      match arguments with
      | [] => setStatus 0
      | file :: _ =>
        match (← get).files.find? (plainName (Bytes.text file)) with
        | some text => runText fuel "" text
        | none => giveUp (".: " ++ Bytes.text file ++ ": not found")
    | "exec" =>
      match arguments with
      | [] => setStatus 0
      | name :: arguments =>
        runProgram fuel "exec: " (Bytes.text name) arguments
        if ← isRunning then halt (.exit (← get).status)
    | "command" =>
      match arguments with
      | [] => setStatus 0
      | first :: rest =>
        if first == bytesOf "-v" then Builtin.describeAll true rest
        else if first == bytesOf "-V" then Builtin.describeAll false rest
        else if first == bytesOf "-p" then
          match rest with
          | [] => setStatus 0
          | name :: rest => runNamed fuel (Bytes.text name) rest
        else runNamed fuel (Bytes.text first) rest
    | "kill" => Builtin.kill (runText fuel "") arguments
    | name =>
      match Builtin.find? name with
      | some command => command arguments
      | none => runProgram fuel "" name arguments

/-- Runs a program. -/
def runProgram : Nat → String → String → List Bytes → Run Unit
  | 0, _, _, _ => halt (.killed 4242 11)
  | fuel + 1, prelude, name, arguments => do
    match name with
    | "sh" | "dash" | "bash" | "/bin/sh" => runShell fuel arguments
    | "env" =>
      let isAssignment (b : Bytes) : Bool := b.contains (byte '=')
      let earlier := (← get).bindings
      let exported := (← get).exported
      for b in arguments.takeWhile isAssignment do
        let (parameter, value) := Builtin.splitAssignment b
        modify fun s =>
          { s.setVariable parameter (value.getD []) with exported := parameter :: s.exported }
      match arguments.dropWhile isAssignment with
      | [] =>
        let s ← get
        for (parameter, value) in s.bindings do
          if s.exported.contains parameter then
            write 1 (bytesOf (parameter ++ "=") ++ value ++ [newline])
        setStatus 0
      | name :: rest => runProgram fuel "" (Bytes.text name) rest
      modify fun s => { s with bindings := earlier, exported := exported }
    | "timeout" =>
      match arguments with
      | interval :: name :: rest =>
        match Toolbox.readInterval interval with
        | none =>
          runTool (fun j => Toolbox.badInterval j 125 interval) "timeout" arguments
        | some limit =>
          let start := (← get).elapsed
          runProgram fuel "" (Bytes.text name) rest
          let s ← get
          if limit != 0 && (s.stop = some .endless || start + limit ≤ s.elapsed) then
            set { s with stop := none, elapsed := start + limit, status := 124 }
      | _ => runTool (fun j => j.complain 125 ("missing operand" ++ j.hint)) "timeout" arguments
    | "nohup" | "nice" =>
      match arguments with
      | [] => setStatus 0
      | name :: rest => runProgram fuel "" (Bytes.text name) rest
    | "xargs" =>
      let (input, s) := (← get).drain 0
      set s
      let (command, rows) := argumentRows arguments input
      let (name, fixed) := match command with
        | [] => ("echo", [])
        | name :: fixed => (Bytes.text name, fixed)
      let mut failed := false
      for row in rows do
        if ← isRunning then
          runProgram fuel "" name (fixed ++ row)
          if (← get).status != 0 then failed := true
      if failed && (← isRunning) then setStatus 123
    | "echo" | "/bin/echo" => Builtin.echo arguments
    | "printf" => Builtin.printf arguments
    | "true" | "/bin/true" => setStatus 0
    | "false" | "/bin/false" => setStatus 1
    | "test" => Builtin.test "test" arguments
    | "[" => Builtin.bracket arguments
    | "" =>
      complain (prelude ++ ": Permission denied")
      setStatus 127
    | name =>
      match Toolbox.find? name with
      | some tool => runTool tool name arguments
      | none =>
        let isFile := name.contains '/' && ((← get).files.find? (plainName name)).isSome
        if isFile || ["/", ".", "..", "./", "/tmp", "/dev", "/dev/null"].contains name then
          complain (prelude ++ name ++ ": Permission denied")
          setStatus 126
        else
          complain (prelude ++ name ++ ": not found")
          setStatus 127

/-- Runs the text of a script in the shell. -/
def runText : Nat → String → Bytes → Run Unit
  | 0, _, _ => halt (.killed 4242 11)
  | fuel + 1, prelude, text => do
    let script := (Bytes.text text).toList
    let s ← get
    let (commands, misread) := readScript (script.length + 1) script
    set { s with script := script, remaining := script.length, status := 0 }
    if commands.isEmpty then pure () else setStatus s.status
    runAll fuel commands
    if ← isRunning then
      match misread with
      | some misread =>
        modify fun s => { s with remaining := misread.remaining }
        giveUp (prelude ++ "Syntax error: " ++ misread.fault.message)
      | none => pure ()
    modify fun inner => { inner with script := s.script, remaining := s.remaining }

/-- Runs the commands that are set for the end of the shell. -/
def runExitTrap : Nat → Run Unit
  | 0 => pure ()
  | fuel + 1 => do
    let s ← get
    match s.traps.lookup "0", s.stop with
    | some text, none | some text, some (.exit _) =>
      let status := match s.stop with
        | some (.exit n) => n
        | _ => s.status
      set { s with stop := none, traps := [], status := status }
      runText fuel "" text
      if ← isRunning then halt (.exit status)
    | _, _ => pure ()

/-- Runs another shell. Of the variables it gets those that are exported. -/
def runShell : Nat → List Bytes → Run Unit
  | 0, _ => halt (.killed 4242 11)
  | fuel + 1, arguments => do
    let outer ← get
    let process := outer.process + 1
    let isCommand (b : Bytes) : Bool := b.head? == some (byte '-') && b.contains (byte 'c')
    let options := arguments.takeWhile fun b => b.head? == some (byte '-')
    let operands := arguments.dropWhile fun b => b.head? == some (byte '-')
    let (text, positional, s) := match operands with
      | text :: rest =>
        if options.any isCommand then (some text, rest.drop 1, outer)
        else (outer.files.find? (plainName (Bytes.text text)), rest, outer)
      | [] =>
        let (input, s) := outer.drain 0
        (some input, [], s)
    match text with
    | none =>
      write 2 (bytesOf ("sh: 0: cannot open " ++ Bytes.text (operands.headD []) ++ ": No such file\n"))
      setStatus 2
    | some text =>
      let has (c : Char) : Bool := options.any fun b => b.contains (byte c)
      set { State.ofInput [] [] [] with
        bindings := s.bindings.filter fun v => s.exported.contains v.1
        exported := s.exported
        process := process
        positional := positional
        files := s.files
        buffers := s.buffers
        streams := s.streams
        elapsed := s.elapsed
        stopsOnFailure := has 'e'
        refusesUnset := has 'u' }
      runText fuel "" text
      runExitTrap fuel
      let inner ← get
      let after := s.afterSubshell inner
      match inner.stop with
      | some (.killed p n) =>
        if p = process then
          set { after with stop := none, status := 128 + n }
          if n != 2 && n != 13 then write 2 (bytesOf (epitaph n ++ "\n"))
        else set after
      | _ => set after

end

/-- Runs the shell on a command, and its input; the result is what became of it within the limit, in
milliseconds, and the files that it has left. -/
def run (command : String) (input : Bytes) (files : Files) (limit : Nat) :
    Command.Outcome × Files :=
  let start := State.ofInput command.toList input files
  let (_, s) := (do
    runText deepestNesting "" (bytesOf command)
    runExitTrap deepestNesting : Run Unit).run start
  let finished (status : Command.Status) : Command.Outcome :=
    if limit ≤ s.elapsed then .timedOut
    else .finished ⟨status, (s.contents 1).toByteArray, (s.contents 2).toByteArray⟩
  let outcome := match s.stop with
    | some .endless => .timedOut
    | some (.killed _ signal) => finished (.signal signal)
    | some (.exit n) => finished (.code (n % 256))
    | some (.leaveFunction n) => finished (.code (n % 256))
    | _ => finished (.code (s.status % 256))
  (outcome, s.files)

end LoopTuner.Shell
