/-!
How a command ends: by itself with a code, or by a signal.
-/

namespace LoopTuner.Command

inductive Status where
  | code (n : Nat)
  | signal (n : Nat)
  deriving DecidableEq, Repr

namespace Status

def isSuccess : Status → Bool
  | code n => n == 0
  | signal _ => false

/-- The signals that have a name, by number from one on. -/
def signalNames : List String :=
  ["HUP", "INT", "QUIT", "ILL", "TRAP", "ABRT", "BUS", "FPE", "KILL", "USR1", "SEGV", "USR2",
    "PIPE", "ALRM", "TERM", "STKFLT", "CHLD", "CONT", "STOP", "TSTP", "TTIN", "TTOU", "URG",
    "XCPU", "XFSZ", "VTALRM", "PROF", "WINCH", "IO", "PWR", "SYS"]

def signalName? (n : Nat) : Option String := if n = 0 then none else signalNames[n - 1]?

def text : Status → String
  | code n => "exit status: " ++ toString n
  | signal n =>
    match signalName? n with
    | some name => "signal: " ++ toString n ++ " (SIG" ++ name ++ ")"
    | none => "signal: " ++ toString n

end Status

end LoopTuner.Command
