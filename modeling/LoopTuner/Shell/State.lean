import LoopTuner.Shell.Script
import LoopTuner.Shell.Tool

/-!
The state of a shell: its variables, the files, and the streams that lead to buffers and files. What
is written to a buffer can be read from it later, so a pipe is a buffer whose writer has run before
its reader. Time passes only while a command sleeps.
-/

namespace LoopTuner.Shell

/-- Where a stream leads. -/
inductive Stream where
  | input (buffer : Nat)
  | output (buffer : Nat)
  | file (name : String)
  | nowhere
  | closed
  deriving DecidableEq, Repr

/-- What keeps the commands that follow from running. -/
inductive Stop where
  | exit (status : Nat)
  /-- A signal has ended the process of the given number. -/
  | killed (process signal : Nat)
  | leaveLoop (levels : Nat)
  | nextTurn (levels : Nat)
  | leaveFunction (status : Nat)
  | endless
  deriving DecidableEq, Repr

/-- A command in the background: when it is done, and what it has written by then. -/
structure Pending where
  finish : Nat
  writes : List (Stream × Bytes)
  files : Files

structure State where
  bindings : List (String × Bytes)
  exported : List String
  constants : List String
  positional : List Bytes
  functions : List (String × Command)
  /-- The number of the process, and that of its last background command with its status. -/
  process : Nat
  lastJob : Option Nat
  jobStatus : Nat
  /-- The values that variables had before functions made them local, innermost call first. -/
  frames : List (List (String × Option Bytes))
  /-- The commands that are run on a signal or, under the name EXIT, at the end. -/
  traps : List (String × Bytes)
  files : Files
  /-- The contents of the buffers, in pieces, newest first. -/
  buffers : Array (List Bytes)
  streams : List (Nat × Stream)
  status : Nat
  /-- The status of the last commands whose output was captured, since the command began. -/
  captured : Option Nat
  stop : Option Stop
  /-- How many loops of the running function are open. -/
  loops : Nat
  elapsed : Nat
  pending : List Pending
  /-- The script, by which lines are counted, and what is left of it. -/
  script : List Char
  remaining : Nat
  stopsOnFailure : Bool
  refusesUnset : Bool
  /-- Whether the status of a command is being tested, so that a failure is no reason to stop. -/
  tested : Bool

namespace State

def ofInput (script : List Char) (input : Bytes) (files : Files) : State where
  bindings := []
  exported := []
  constants := []
  positional := []
  functions := []
  process := 4242
  lastJob := none
  jobStatus := 0
  frames := []
  traps := []
  files := files
  buffers := #[[input], [], []]
  streams := [(0, .input 0), (1, .output 1), (2, .output 2)]
  status := 0
  captured := none
  stop := none
  loops := 0
  elapsed := 0
  pending := []
  script := script
  remaining := script.length
  stopsOnFailure := false
  refusesUnset := false
  tested := false

def value? (s : State) (name : String) : Option Bytes := s.bindings.lookup name

def setVariable (s : State) (name : String) (value : Bytes) : State :=
  { s with bindings := (name, value) :: s.bindings.filter (·.1 != name) }

def unsetVariable (s : State) (name : String) : State :=
  { s with bindings := s.bindings.filter (·.1 != name) }

def stream (s : State) (number : Nat) : Stream := (s.streams.lookup number).getD .closed

def setStream (s : State) (number : Nat) (target : Stream) : State :=
  { s with streams := (number, target) :: s.streams.filter (·.1 != number) }

def contents (s : State) (buffer : Nat) : Bytes := (s.buffers.getD buffer []).reverse.flatten

/-- Adds a buffer. -/
def addBuffer (s : State) (contents : Bytes) : Nat × State :=
  (s.buffers.size, { s with buffers := s.buffers.push [contents] })

def writeTo (s : State) (target : Stream) (bytes : Bytes) : State :=
  match target with
  | .output buffer => { s with buffers := s.buffers.modify buffer (bytes :: ·) }
  | .file name => { s with files := s.files.put name ((s.files.find? name).getD [] ++ bytes) }
  | _ => s

/-- Takes all that is left to read on a stream. -/
def drain (s : State) (number : Nat) : Bytes × State :=
  match s.stream number with
  | .input buffer => (s.contents buffer, { s with buffers := s.buffers.modify buffer fun _ => [] })
  | _ => ([], s)

/-- The number of the line that is being run. -/
def line (s : State) : Nat :=
  (s.script.take (s.script.length - s.remaining)).count '\n' + 1

/-- Lets time pass. The writes of background commands that are done by then take place. -/
def advance (s : State) (duration : Nat) : State :=
  let now := s.elapsed + duration
  let done := s.pending.filter fun p => p.finish ≤ now
  done.foldl
    (fun s p => p.writes.foldl (fun s w => s.writeTo w.1 w.2)
      { s with files := p.files ++ s.files.filter fun f => (p.files.find? f.1).isNone })
    { s with elapsed := now, pending := s.pending.filter fun p => now < p.finish }

/-- What a subshell leaves behind: its writes and its status. Only the end of the whole shell reaches
beyond it. -/
def afterSubshell (outer inner : State) : State :=
  let (status, stop) := match inner.stop with
    | some (.exit n) => (n, none)
    | some (.leaveFunction n) => (n, none)
    | some (.killed p n) => (inner.status, some (.killed p n))
    | some .endless => (inner.status, some .endless)
    | _ => (inner.status, none)
  { outer with
    files := inner.files
    buffers := inner.buffers
    elapsed := inner.elapsed
    status := status
    stop := stop }

end State

abbrev Run := StateM State

def write (number : Nat) (bytes : Bytes) : Run Unit :=
  modify fun s => s.writeTo (s.stream number) bytes

def setStatus (status : Nat) : Run Unit := modify fun s => { s with status := status }

def halt (stop : Stop) : Run Unit := modify fun s => { s with stop := some stop }

/-- Writes a message of the shell itself. -/
def complain (text : String) : Run Unit := do
  write 2 (bytesOf ("sh: " ++ toString (← get).line ++ ": " ++ text ++ "\n"))

/-- Ends the shell after a message. -/
def giveUp (text : String) : Run Unit := do
  complain text
  setStatus 2
  halt (.exit 2)

def isRunning : Run Bool := return (← get).stop.isNone

end LoopTuner.Shell
