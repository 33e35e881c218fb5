import LoopTuner.Decimal.Reading
import LoopTuner.Shell.Calculation
import LoopTuner.Shell.Edit
import LoopTuner.Shell.Filter
import LoopTuner.Shell.Format

/-!
The tools that a command can name: filters, tools for files and names, and tools that wait.
-/

namespace LoopTuner.Shell

namespace Toolbox

/-- Longer than any command may run. -/
def forever : Nat := Nat.pow 10 15

/-- Milliseconds of an interval such as `0.5`, `2m` or `infinity`. -/
def readInterval (b : Bytes) : Option Nat :=
  let text := Bytes.chars b
  let (digits, unit) := match text.getLast? with
    | some 's' => (text.dropLast, 1)
    | some 'm' => (text.dropLast, 60)
    | some 'h' => (text.dropLast, 3600)
    | some 'd' => (text.dropLast, 86400)
    | _ => (text, 1)
  match Decimal.read? digits with
  | none => none
  | some x =>
    if x.isNaN || x < 0 then none
    else if x < 1e11 then some (min forever (unit * (x * 1000).ceil.toUInt64.toNat))
    else some forever

def badInterval (j : Job) (status : Nat) (b : Bytes) : Result :=
  j.complain status ("invalid time interval '" ++ Bytes.text b ++ "'" ++ j.hint)

def sleep (j : Job) : Result :=
  if j.arguments.isEmpty then j.complain 1 ("missing operand" ++ j.hint)
  else
    match j.arguments.find? fun b => (readInterval b).isNone with
    | some b => badInterval j 1 b
    | none =>
      { j.done [] 0 with
        reads := false
        elapsed := (j.arguments.filterMap readInterval).foldl (· + ·) 0 }

def basename (j : Job) : Result :=
  let last (b : Bytes) : Bytes :=
    let trimmed := (b.reverse.dropWhile (· == byte '/')).reverse
    if trimmed.isEmpty then b.take 1
    else (trimmed.reverse.takeWhile (· != byte '/')).reverse
  match j.arguments with
  | [] => j.complain 1 ("missing operand" ++ j.hint)
  | [name] => { j.done (last name ++ [newline]) 0 with reads := false }
  | name :: ending :: _ =>
    let name := last name
    let cut := if name.length > ending.length && name.drop (name.length - ending.length) == ending
      then name.take (name.length - ending.length) else name
    { j.done (cut ++ [newline]) 0 with reads := false }

def dirname (j : Job) : Result :=
  let parent (b : Bytes) : Bytes :=
    let isSlash (x : UInt8) : Bool := x == byte '/'
    let above := ((b.reverse.dropWhile isSlash).dropWhile fun x => !isSlash x).dropWhile isSlash
    if !above.isEmpty then above.reverse
    else if b.any isSlash && b.head? == some (byte '/') then bytesOf "/"
    else bytesOf "."
  if j.arguments.isEmpty then j.complain 1 ("missing operand" ++ j.hint)
  else { j.done (unlines (j.arguments.map parent)) 0 with reads := false }

def touch (j : Job) : Result :=
  let files := j.arguments.foldl (fun (files : Files) name =>
    let name := plainName (Bytes.text name)
    files.put name ((files.find? name).getD [])) j.files
  { j.done [] 0 with reads := false, files := files }

/-- Applies a change of files to each operand; a missing file is a complaint. -/
def eachFile (j : Job) (operands : List Bytes) (forgiving : Bool) (verb : String)
    (change : Files → String → Files) : Result :=
  let names := operands.map fun b => plainName (Bytes.text b)
  let missing := names.filter fun name => (j.files.find? name).isNone
  let complaints := missing.map fun name =>
    j.name ++ ": cannot " ++ verb ++ " '" ++ name ++ "': No such file or directory\n"
  { j.done [] (if forgiving || missing.isEmpty then 0 else 1) with
    reads := false
    diagnostics := if forgiving then [] else bytesOf (String.join complaints)
    files := names.foldl change j.files }

def rm (j : Job) : Result :=
  j.withOptions "frRiv" "" 1 fun o =>
    eachFile j o.operands (o.has 'f') "remove" Files.erase

/-- Copies or moves one file to another name. -/
def copy (keep : Bool) (j : Job) : Result :=
  j.withOptions "fiapr" "" 1 fun o =>
    match o.operands with
    | [source, target] =>
      let name := plainName (Bytes.text target)
      eachFile j [source] false "stat" fun files source =>
        match files.find? source with
        | none => files
        | some contents => Files.put (if keep then files else files.erase source) name contents
    | [] => j.complain 1 ("missing file operand" ++ j.hint)
    | one :: _ => j.complain 1 ("missing destination file operand after '" ++ Bytes.text one ++ "'" ++ j.hint)

def ls (j : Job) : Result :=
  j.withOptions "1la" "" 2 fun o =>
    let sorted (names : List String) : Bytes :=
      unlines ((names.mergeSort fun a b => a ≤ b).map bytesOf)
    if o.operands.all fun b => [bytesOf ".", bytesOf "./"].contains b then
      { j.done (sorted (j.files.map (·.1))) 0 with reads := false }
    else
      let names := o.operands.map Bytes.text
      let (known, unknown) := names.partition fun name => (j.files.find? (plainName name)).isSome
      let complaints := unknown.map fun name =>
        "ls: cannot access '" ++ name ++ "': No such file or directory\n"
      { j.done (sorted known) (if unknown.isEmpty then 0 else 2) with
        reads := false
        diagnostics := bytesOf (String.join complaints) }

/-- Repeats a line, as often as any reader of a pipe asks for. -/
def yes (j : Job) : Result :=
  let line := (if j.arguments.isEmpty then bytesOf "y" else List.intercalate [32] j.arguments)
  { j.done (unlines (List.replicate 200000 line)) 0 with reads := false }

def succeed (status : Nat) (j : Job) : Result := { j.done [] status with reads := false }

/-- What the pattern of `expr` says of a text: the text of its group, or else how many bytes it
matches at the start. -/
def matchText (text pattern : Bytes) : Bytes :=
  let r := Regex.read false pattern
  let hasGroup := r.groupNumbers.contains 1
  match (Regex.seq .lineStart r).find false text with
  | some (p, q) =>
    if hasGroup then (q.groups.lookup 1).getD [] else bytesOf (toString (q.index - p.index))
  | none => if hasGroup then [] else bytesOf "0"

def nl (j : Job) : Result :=
  let line (n : Nat) (b : Bytes) : Bytes := Filter.padLeft 6 (bytesOf (toString n)) ++ [9] ++ b
  let body := (linesOf (j.gather j.arguments)).foldl (fun (n, out) b =>
    if b.isEmpty then (n, (List.replicate 7 32) :: out) else (n + 1, line n b :: out))
    ((1, []) : Nat × List Bytes)
  j.done (unlines body.2.reverse) 0

/-- Joins the lines of its input. -/
def paste (j : Job) : Result :=
  j.withOptions "s" "d" 1 fun o =>
    let delimiter := ((o.value? 'd').bind List.head?).getD 9
    let lines := linesOf (j.gather o.operands)
    if o.has 's' then j.done (List.intercalate [delimiter] lines ++ [newline]) 0
    else j.done (unlines lines) 0

def tools : List (String × Tool) := [
  ("cat", Filter.cat), ("wc", Filter.wc), ("grep", Filter.grep),
  ("egrep", fun j => Filter.grep { j with arguments := bytesOf "-E" :: j.arguments }),
  ("fgrep", fun j => Filter.grep { j with arguments := bytesOf "-F" :: j.arguments }),
  ("tr", Filter.tr), ("head", Filter.head), ("tail", Filter.tail), ("sort", Filter.sort),
  ("uniq", Filter.uniq), ("cut", Filter.cut), ("rev", Filter.rev), ("tac", Filter.tac),
  ("tee", Filter.tee), ("seq", Filter.seq), ("sed", Edit.sed), ("nl", nl), ("paste", paste),
  ("expr", Expression.expr matchText), ("sleep", sleep), ("basename", basename),
  ("dirname", dirname), ("touch", touch), ("rm", rm), ("cp", copy true), ("mv", copy false),
  ("ls", ls), ("yes", yes), ("sync", succeed 0), ("chmod", succeed 0)]

def find? (name : String) : Option Tool :=
  (tools.lookup name).orElse fun _ =>
    match name.splitOn "/" with
    | ["", "bin", name] | ["", "usr", "bin", name] => tools.lookup name
    | _ => none

end Toolbox

end LoopTuner.Shell
