import LoopTuner.Decimal.Reading
import LoopTuner.Search.Config
import LoopTuner.Text.Numeral

/-!
The arguments of the program. They are read from left to right and the first one at fault decides, so
a request for help wins over what is missing or wrong after it.
-/

namespace LoopTuner.Cli

/-- The options that take a value. -/
inductive Setting where
  | evaluator
  | iterations
  | strategy
  | exploration
  | cap
  | seed
  | stages
  | timeout
  deriving DecidableEq, Repr

namespace Setting

def all : List Setting :=
  [evaluator, iterations, strategy, exploration, cap, seed, stages, timeout]

def name : Setting → String
  | evaluator => "evaluator"
  | iterations => "iterations"
  | strategy => "strategy"
  | exploration => "exploration"
  | cap => "max-branching"
  | seed => "seed"
  | stages => "stages"
  | timeout => "timeout"

def ofName? (name : String) : Option Setting := all.find? fun s => s.name == name

end Setting

/-- Why arguments cannot be used. -/
inductive UsageFault where
  | unexpected (argument : String)
  | missingValue (setting : Setting)
  | extraValue (flag value : String)
  | repeated (setting : Setting)
  | invalidValue (setting : Setting) (value : String)
  | noKernel
  | noEvaluator
  deriving DecidableEq, Repr

def UsageFault.message : UsageFault → String
  | .unexpected argument => "unexpected argument '" ++ argument ++ "' found"
  | .missingValue setting => "a value is required for '--" ++ setting.name ++ "' but none was supplied"
  | .extraValue flag value => "unexpected value '" ++ value ++ "' for '" ++ flag ++ "' found"
  | .repeated setting => "the argument '--" ++ setting.name ++ "' cannot be used multiple times"
  | .invalidValue setting value =>
    "invalid value '" ++ value ++ "' for '--" ++ setting.name ++ "'"
  | .noKernel => "the following required arguments were not provided: <KERNEL>"
  | .noEvaluator => "the following required arguments were not provided: --evaluator <EVALUATOR>"

/-- The values that have been read so far. -/
structure Draft where
  kernel : Option String
  evaluator : Option String
  iterations : Option Nat
  strategy : Option Strategy
  exploration : Option Float
  cap : Option Nat
  seed : Option Nat
  stages : Option (List Kind)
  timeout : Option Nat

def Draft.empty : Draft := ⟨none, none, none, none, none, none, none, none, none⟩

/-- A search on the kernel of a file, with costs that a command measures. -/
structure Options where
  kernel : String
  evaluator : String
  iterations : Nat
  config : Config
  stages : List Kind
  /-- The time for one measurement, in seconds. -/
  timeout : Nat

inductive Request where
  | search (options : Options)
  | help (long : Bool)
  | version

def readNat? (value : String) : Option Nat := (Text.Numeral.readWord value.toList).toOption

def readStrategy? (value : String) : Option Strategy :=
  match value with
  | "tree" => some .treeSearch
  | "best-first" => some .bestFirst
  | _ => none

/-- The kinds of a list with commas. -/
def readStages? (value : String) : Option (List Kind) := (value.splitOn ",").mapM Kind.read?

namespace Draft

/-- Stores a value that may be given once only. -/
def once {α : Type} (setting : Setting) (value : String) (earlier read : Option α)
    (store : α → Draft) : Except UsageFault Draft :=
  match earlier, read with
  | some _, _ => .error (.repeated setting)
  | none, none => .error (.invalidValue setting value)
  | none, some a => .ok (store a)

/-- Stores the value of a setting. Only stages may be given more than once; they add up. -/
def set (d : Draft) (setting : Setting) (value : String) : Except UsageFault Draft :=
  match setting with
  | .evaluator => once setting value d.evaluator (some value) fun v => { d with evaluator := some v }
  | .iterations =>
    once setting value d.iterations (readNat? value) fun v => { d with iterations := some v }
  | .strategy =>
    once setting value d.strategy (readStrategy? value) fun v => { d with strategy := some v }
  | .exploration =>
    once setting value d.exploration (Decimal.read? value.toList) fun v =>
      { d with exploration := some v }
  | .cap => once setting value d.cap (readNat? value) fun v => { d with cap := some v }
  | .seed => once setting value d.seed (readNat? value) fun v => { d with seed := some v }
  | .timeout => once setting value d.timeout (readNat? value) fun v => { d with timeout := some v }
  | .stages =>
    match readStages? value with
    | none => .error (.invalidValue setting value)
    | some kinds => .ok { d with stages := some (d.stages.getD [] ++ kinds) }

/-- Stores an argument that is no option. The path of the kernel is the only one. -/
def place (d : Draft) (argument : String) : Except UsageFault Draft :=
  match d.kernel with
  | some _ => .error (.unexpected argument)
  | none => if argument.isEmpty then .error .noKernel else .ok { d with kernel := some argument }

/-- The options of a search, with the standard values of those that are not given. -/
def finish (d : Draft) : Except UsageFault Options :=
  match d.kernel, d.evaluator with
  | none, _ => .error .noKernel
  | _, none => .error .noEvaluator
  | some kernel, some evaluator =>
    .ok {
      kernel := kernel
      evaluator := evaluator
      iterations := d.iterations.getD 100
      config := {
        exploration := d.exploration.getD Config.standard.exploration
        cap := d.cap.getD Config.standard.cap
        seed := (d.seed.getD 0).toUInt64
        strategy := d.strategy.getD Config.standard.strategy }
      stages := d.stages.getD Kind.all
      timeout := d.timeout.getD 60 }

end Draft

/-- What an argument looks like. -/
inductive Shape where
  | separator
  | long (name : String) (value : Option String)
  | short (letter : Char)
  | plain

def shapeOf (argument : String) : Shape :=
  match argument.toList with
  | ['-', '-'] => .separator
  | '-' :: '-' :: body =>
    match body.dropWhile (· != '=') with
    | [] => .long (String.ofList body) none
    | _ :: value => .long (String.ofList (body.takeWhile (· != '='))) (some (String.ofList value))
  | '-' :: letter :: _ => .short letter
  | _ => .plain

/-- Reads arguments after the two dashes that end the options. -/
def readOperands (d : Draft) : List String → Except UsageFault Request
  | [] => Request.search <$> d.finish
  | argument :: rest => do readOperands (← d.place argument) rest

def readFrom (d : Draft) : List String → Except UsageFault Request
  | [] => Request.search <$> d.finish
  | argument :: rest =>
    match shapeOf argument with
    | .separator => readOperands d rest
    | .plain => do readFrom (← d.place argument) rest
    | .short 'h' => .ok (.help false)
    | .short 'V' => .ok .version
    | .short _ => .error (.unexpected argument)
    | .long "help" none => .ok (.help true)
    | .long "version" none => .ok .version
    | .long "help" (some value) => .error (.extraValue "--help" value)
    | .long "version" (some value) => .error (.extraValue "--version" value)
    | .long name attached =>
      match Setting.ofName? name, attached, rest with
      | none, _, _ => .error (.unexpected argument)
      | some setting, some value, rest => do readFrom (← d.set setting value) rest
      | some setting, none, [] => .error (.missingValue setting)
      | some setting, none, value :: rest =>
        match shapeOf value with
        | .plain => do readFrom (← d.set setting value) rest
        | _ => .error (.missingValue setting)

/-- Reads the arguments of the program. -/
def readArguments (arguments : List String) : Except UsageFault Request :=
  readFrom .empty arguments

end LoopTuner.Cli
