import LoopTuner.Shell.Pattern
import LoopTuner.Shell.Tool

/-!
Filters: tools that count, choose or change lines.
-/

namespace LoopTuner.Shell.Filter

def cat (j : Job) : Result :=
  j.withOptions "nuAeEtTvsb" "" 1 fun o =>
    if o.has 'n' then
      let numbered := (linesOf (j.gather o.operands)).mapIdx fun i line =>
        let n := bytesOf (toString (i + 1))
        List.replicate (6 - n.length) 32 ++ n ++ [9] ++ line
      j.done (unlines numbered) 0
    else j.mapFiles o.operands fun _ b => b

def padLeft (width : Nat) (b : Bytes) : Bytes := List.replicate (width - b.length) 32 ++ b

/-- The counts that `wc` can show, in the order in which it shows them. -/
def counts (b : Bytes) : List (Char × Nat) :=
  [('l', b.count newline), ('w', (fieldsOf b).length), ('m', b.length), ('c', b.length),
    ('L', ((linesOf b).map List.length).foldl max 0)]

def wc (j : Job) : Result :=
  j.withOptions "lwmcL" "" 1 fun o =>
    let shown := if o.options.isEmpty then ['l', 'w', 'c'] else o.options.map (·.1)
    let chosen (b : Bytes) : List Nat :=
      ((counts b).filter fun c => shown.contains c.1).map (·.2)
    let opened := j.openAll o.operands
    let sizes := opened.filterMap fun (_, r) => match r with
      | .ok b => some b.length
      | .error _ => none
    let columns := (chosen []).length
    let width :=
      if columns = 1 ∧ opened.length = 1 then 1
      else if o.operands.isEmpty || o.operands.any (· == bytesOf "-") then 7
      else (toString (sizes.foldl (· + ·) 0)).length
    let row (values : List Nat) (name : Bytes) : Bytes :=
      List.intercalate [32] (values.map fun n => padLeft width (bytesOf (toString n))) ++
        (if name.isEmpty then [] else 32 :: name)
    let named (name : String) : Bytes := if o.operands.isEmpty then [] else bytesOf name
    let result := j.mapFiles o.operands fun name b => row (chosen b) (named name) ++ [newline]
    if opened.length < 2 then result
    else
      let total := opened.foldl (fun acc (_, r) => match r with
        | .ok b => acc.zipWith (· + ·) (chosen b)
        | .error _ => acc) (List.replicate columns 0)
      { result with output := result.output ++ row total (bytesOf "total") ++ [newline] }

/-- The regular expression of a `grep`. -/
def grepRegex (o : Options) (patterns : Bytes) : Regex :=
  let one (p : Bytes) : Regex := if o.has 'F' then .literal p else .read (o.has 'E') p
  let body := match (linesOf (patterns ++ [newline])).map one with
    | [] => .nothing
    | r :: rest => rest.foldl .alt r
  if o.has 'x' then .seq .lineStart (.seq body .lineEnd)
  else if o.has 'w' then .seq .wordEdge (.seq body .wordEdge)
  else body

/-- The parts of a line that match. -/
def matchesIn (ignoreCase : Bool) (r : Regex) : Nat → Option UInt8 → Bytes → List Bytes
  | 0, _, _ => []
  | fuel + 1, before, line =>
    match r.findFrom ignoreCase (line.length + 1) (.start before line) with
    | none => []
    | some (p, q) =>
      if q.index = p.index then
        match q.rest with
        | [] => []
        | b :: rest => matchesIn ignoreCase r fuel (some b) rest
      else p.rest.take (q.index - p.index) :: matchesIn ignoreCase r fuel q.before q.rest

def grep (j : Job) : Result :=
  let usage : Result := ⟨[], bytesOf ("Usage: grep [OPTION]... PATTERNS [FILE]..." ++ j.hint ++ "\n"),
    2, false, j.files, 0⟩
  match readOptions "cqvinowxEFGslhHLa".toList "em".toList j.arguments with
  | .error c =>
    let complaint := bytesOf ("grep: invalid option -- '" ++ String.ofList [c] ++ "'\n")
    { usage with diagnostics := complaint ++ usage.diagnostics }
  | .ok o =>
    let (pattern, files) := match o.values 'e', o.operands with
      | [], [] => (none, [])
      | [], p :: files => (some p, files)
      | patterns, files => (some (List.intercalate [newline] patterns), files)
    match pattern with
    | none => usage
    | some pattern =>
      let r := grepRegex o pattern
      let selected (b : Bytes) : List (Nat × Bytes) :=
        let all := ((linesOf b).mapIdx fun i line => (i + 1, line)).filter fun (_, line) =>
          r.isMatch (o.has 'i') line != o.has 'v'
        match o.nat 'm' with
        | some n => all.take n
        | none => all
      let many := (1 < files.length && !o.has 'h') || o.has 'H'
      let label (name : String) : String := if name = "-" then "(standard input)" else name
      let lead (name : String) : Bytes := if many then bytesOf (label name ++ ":") else []
      let report (name : String) (b : Bytes) : Bytes :=
        let chosen := selected b
        if o.has 'q' then []
        else if o.has 'l' then
          if chosen.isEmpty then [] else bytesOf (label name ++ "\n")
        else if o.has 'L' then
          if chosen.isEmpty then bytesOf (label name ++ "\n") else []
        else if o.has 'c' then lead name ++ bytesOf (toString chosen.length ++ "\n")
        else chosen.flatMap fun (n, line) =>
          let lead := lead name ++ if o.has 'n' then bytesOf (toString n ++ ":") else []
          if o.has 'o' then
            (matchesIn (o.has 'i') r (line.length + 1) none line).flatMap fun m =>
              lead ++ m ++ [newline]
          else lead ++ line ++ [newline]
      let result := j.mapFiles files report
      let found := (j.openAll files).any fun (_, contents) =>
        match contents with
        | .ok b => !(selected b).isEmpty
        | .error _ => false
      { result with
        diagnostics := if o.has 's' then [] else result.diagnostics
        status :=
          if result.status != 0 then (if o.has 'q' && found then 0 else 2) else if found then 0 else 1 }

/-- Reads the members of a set of `tr` in order. -/
def trMembers : Nat → Bytes → List UInt8
  | 0, _ => []
  | _, [] => []
  | fuel + 1, b :: rest =>
    let single (b : UInt8) (rest : Bytes) : List UInt8 :=
      match rest with
      | dash :: hi :: after =>
        if dash == byte '-' && b ≤ hi then
          (List.range (hi.toNat - b.toNat + 1)).map (fun i => (b.toNat + i).toUInt8) ++
            trMembers fuel after
        else b :: trMembers fuel rest
      | rest => b :: trMembers fuel rest
    if b == byte '[' && rest.head? == some (byte ':') then
      let name := (rest.drop 1).takeWhile isAlphaByte
      let after := ((rest.drop 1).dropWhile isAlphaByte).drop 2
      let ranges := namedClass (Bytes.text name)
      let members := ((List.range 256).map Nat.toUInt8).filter fun x =>
        ranges.any fun r => r.1 ≤ x && x ≤ r.2
      members ++ trMembers fuel after
    else if b == byte '\\' then
      match rest with
      | [] => [b]
      | c :: after =>
        if byte '0' ≤ c && c ≤ byte '7' then
          let digits := (rest.take 3).takeWhile fun d => byte '0' ≤ d && d ≤ byte '7'
          single (digits.foldl (fun n d => n * 8 + (d.toNat - '0'.toNat)) 0).toUInt8
            (rest.drop digits.length)
        else
          let x := if c == byte 'n' then 10 else if c == byte 't' then 9
            else if c == byte 'r' then 13 else if c == byte 'f' then 12
            else if c == byte 'v' then 11 else if c == byte 'a' then 7
            else if c == byte 'b' then 8 else c
          single x after
    else single b rest

/-- Leaves one of each run of equal members. -/
def squeeze (members : List UInt8) : Option UInt8 → Bytes → Bytes
  | _, [] => []
  | last, b :: rest =>
    if last == some b && members.contains b then squeeze members last rest
    else b :: squeeze members (some b) rest

def tr (j : Job) : Result :=
  j.withOptions "cCdst" "" 1 fun o =>
    let readSet (b : Bytes) : List UInt8 := trMembers (b.length + 1) b
    let complement (s : List UInt8) : List UInt8 :=
      if o.has 'c' || o.has 'C' then
        ((List.range 256).map Nat.toUInt8).filter fun x => !s.contains x
      else s
    let translate (first second : List UInt8) (b : UInt8) : UInt8 :=
      match (first.reverse.findIdx? (· == b)) with
      | none => b
      | some i =>
        let index := first.length - 1 - i
        ((second[index]?).orElse fun _ => second.getLast?).getD b
    match o.operands with
    | [] => j.complain 1 ("missing operand" ++ j.hint)
    | [one] =>
      let first := complement (readSet one)
      if o.has 'd' then j.done (j.input.filter fun b => !first.contains b) 0
      else if o.has 's' then j.done (squeeze first none j.input) 0
      else j.complain 1 ("missing operand after '" ++ Bytes.text one ++
        "'\nTwo strings must be given when translating." ++ j.hint)
    | one :: two :: _ =>
      let first := complement (readSet one)
      let second := readSet two
      let body :=
        if o.has 'd' then j.input.filter fun b => !first.contains b
        else j.input.map (translate first second)
      j.done (if o.has 's' then squeeze second none body else body) 0

/-- A count with an optional sign before it. -/
def signedCount (b : Bytes) : Option (Option Char × Nat) :=
  match b with
  | x :: rest =>
    if x == byte '-' then (natOf? rest).map fun n => (some '-', n)
    else if x == byte '+' then (natOf? rest).map fun n => (some '+', n)
    else (natOf? b).map fun n => (none, n)
  | [] => none

/-- The old spelling of a count, a number after a dash, in the new one. -/
def modernCount (arguments : List Bytes) : List Bytes :=
  match arguments with
  | first :: rest =>
    match first with
    | x :: digits =>
      if x == byte '-' && !digits.isEmpty && digits.all isDigitByte then
        bytesOf "-n" :: digits :: rest
      else arguments
    | [] => arguments
  | [] => []

def dropLast {α : Type} (n : Nat) (xs : List α) : List α := xs.take (xs.length - n)

def takeLast {α : Type} (n : Nat) (xs : List α) : List α := xs.drop (xs.length - n)

/-- A tool that shows one end of each file. -/
def cutEnd (j : Job) (choose : {α : Type} → Option Char → Nat → List α → List α) : Result :=
  let j := { j with arguments := modernCount j.arguments }
  j.withOptions "qv" "nc" 1 fun o =>
    let (unit, value) := match o.value? 'c', o.value? 'n' with
      | some v, _ => ('c', v)
      | none, some v => ('n', v)
      | none, none => ('n', bytesOf "10")
    match signedCount value with
    | none => j.complain 1 ("invalid number of " ++ (if unit = 'c' then "bytes" else "lines") ++ ": '" ++
        Bytes.text value ++ "'")
    | some (sign, n) =>
      j.mapFiles o.operands fun name b =>
        let title := if 1 < o.operands.length && !o.has 'q' then
          bytesOf ("==> " ++ name ++ " <==\n") else []
        let terminated := b.getLast? == some newline
        let lines := linesOf b
        let body :=
          if unit = 'c' then choose sign n b
          else
            let kept := choose sign n (lines.mapIdx fun i line =>
              line ++ if i + 1 = lines.length && !terminated then [] else [newline])
            kept.flatten
        title ++ body

def head (j : Job) : Result :=
  cutEnd j fun sign n xs => if sign = some '-' then dropLast n xs else xs.take n

def tail (j : Job) : Result :=
  cutEnd j fun sign n xs => if sign = some '+' then xs.drop (n - 1) else takeLast n xs

/-- Lexicographic order of bytes. -/
def compareBytes : Bytes → Bytes → Ordering
  | [], [] => .eq
  | [], _ => .lt
  | _, [] => .gt
  | a :: as, b :: bs => if a < b then .lt else if b < a then .gt else compareBytes as bs

/-- The number at the front of a line in thousandths; a line without one counts as zero. -/
def numericKey (b : Bytes) : Int :=
  let b := b.dropWhile isBlankByte
  let (negative, b) := match b with
    | x :: rest => if x == byte '-' then (true, rest) else (false, b)
    | [] => (false, [])
  let (whole, rest) := (leadingNat b).getD (0, b)
  let fraction := match rest with
    | x :: rest =>
      if x == byte '.' then
        let digits := (rest.takeWhile isDigitByte ++ List.replicate 18 (byte '0')).take 18
        (natOf? digits).getD 0
      else 0
    | [] => 0
  let n : Int := whole * Nat.pow 10 18 + fraction
  if negative then -n else n

/-- The fields of a line by which `sort` compares. -/
def sortKey (delimiter : Option UInt8) (fields : Option (Nat × Option Nat)) (line : Bytes) : Bytes :=
  match fields with
  | none => line
  | some (first, last) =>
    let cut : List Bytes := match delimiter with
      | some d => piecesOf (· == d) line
      | none => fieldsOf line
    let chosen := match last with
      | some last => (cut.take last).drop (first - 1)
      | none => cut.drop (first - 1)
    List.intercalate [delimiter.getD 32] chosen

def sort (j : Job) : Result :=
  j.withOptions "nrufbsgh" "kt" 2 fun o =>
    let key := o.value? 'k'
    let keyText := (key.map Bytes.chars).getD []
    let fields := key.bind fun k =>
      match leadingNat k with
      | none => none
      | some (first, rest) =>
        let after := (rest.dropWhile fun b => b != byte ',').drop 1
        some (first, (leadingNat after).map (·.1))
    let numeric := o.has 'n' || o.has 'g' || keyText.contains 'n' || keyText.contains 'g'
    let reversed := o.has 'r' || keyText.contains 'r'
    let delimiter := (o.value? 't').bind List.head?
    let fold (b : Bytes) : Bytes := if o.has 'f' then b.map lowerByte else b
    let compareKeys (a b : Bytes) : Ordering :=
      let a := sortKey delimiter fields a
      let b := sortKey delimiter fields b
      if numeric then compare (numericKey a) (numericKey b) else compareBytes (fold a) (fold b)
    let order (a b : Bytes) : Ordering :=
      let first := compareKeys a b
      let full := if o.has 'u' || o.has 's' then first else first.then (compareBytes a b)
      if reversed then full.swap else full
    let sorted := (linesOf (j.gather o.operands)).mergeSort fun a b => order a b != .gt
    let kept := if o.has 'u' then
        sorted.foldr (fun line rest => match rest with
          | next :: _ => if compareKeys line next == .eq then line :: rest.drop 1 else line :: rest
          | [] => [line]) []
      else sorted
    j.done (unlines kept) 0

def uniq (j : Job) : Result :=
  j.withOptions "cdui" "" 1 fun o =>
    let norm (b : Bytes) : Bytes := if o.has 'i' then b.map lowerByte else b
    let groups := (linesOf (j.gather o.operands)).foldr (fun line groups => match groups with
      | (n, next) :: rest =>
        if norm line == norm next then (n + 1, line) :: rest else (1, line) :: groups
      | [] => [(1, line)]) ([] : List (Nat × Bytes))
    let chosen := groups.filter fun (n, _) =>
      if o.has 'd' then 1 < n else if o.has 'u' then n == 1 else true
    j.done (unlines (chosen.map fun (n, line) =>
      if o.has 'c' then padLeft 7 (bytesOf (toString n)) ++ 32 :: line else line)) 0

/-- The ranges of a list such as `1,3-5,7-`. -/
def listRanges (b : Bytes) : List (Nat × Option Nat) :=
  (piecesOf (· == byte ',') b).map fun item =>
    match leadingNat item with
    | some (n, []) => (n, some n)
    | some (n, _ :: rest) => (n, natOf? rest)
    | none => (1, natOf? (item.drop 1))

def inRanges (ranges : List (Nat × Option Nat)) (n : Nat) : Bool :=
  ranges.any fun (lo, hi) => lo ≤ n && match hi with
    | some hi => n ≤ hi
    | none => true

def choosePositions {α : Type} (ranges : List (Nat × Option Nat)) (xs : List α) : List α :=
  (xs.zipIdx.filter fun (_, i) => inRanges ranges (i + 1)).map (·.1)

def cut (j : Job) : Result :=
  j.withOptions "sn" "dfcb" 1 fun o =>
    let lines := linesOf (j.gather o.operands)
    match o.value? 'f', (o.value? 'c').orElse fun _ => o.value? 'b' with
    | some list, _ =>
      let delimiter := ((o.value? 'd').bind List.head?).getD 9
      let body := lines.filterMap fun line =>
        if line.contains delimiter then
          some (List.intercalate [delimiter]
            (choosePositions (listRanges list) (piecesOf (· == delimiter) line)))
        else if o.has 's' then none
        else some line
      j.done (unlines body) 0
    | none, some list => j.done (unlines (lines.map (choosePositions (listRanges list)))) 0
    | none, none =>
      j.complain 1 ("you must specify a list of bytes, characters, or fields" ++ j.hint)

def rev (j : Job) : Result :=
  j.mapFiles j.arguments fun _ b => unlines ((linesOf b).map List.reverse)

def tac (j : Job) : Result :=
  j.mapFiles j.arguments fun _ b => unlines (linesOf b).reverse

def tee (j : Job) : Result :=
  j.withOptions "ai" "" 1 fun o =>
    let files := o.operands.foldl (fun (files : Files) name =>
      let name := plainName (Bytes.text name)
      if name = "/dev/null" then files
      else
        let earlier := if o.has 'a' then (files.find? name).getD [] else []
        files.put name (earlier ++ j.input)) j.files
    { j.done j.input 0 with files := files }

/-- The numbers from `first` by `step` up or down to `last`. -/
def countFrom (step last : Int) : Nat → Int → List Int
  | 0, _ => []
  | fuel + 1, n =>
    if (0 < step ∧ last < n) ∨ (step < 0 ∧ n < last) then [] else n :: countFrom step last fuel (n + step)

def seq (j : Job) : Result :=
  let (separator, numbers) := match j.arguments with
    | s :: text :: rest => if s == bytesOf "-s" then (text, rest) else ([newline], j.arguments)
    | rest => ([newline], rest)
  let write (first step last : Int) : Result :=
    if step = 0 then j.complain 1 "invalid Zero increment value: '0'"
    else
      let count := ((last - first) / step + 1).toNat
      let items := (countFrom step last (count + 1) first).map fun n => bytesOf (toString n)
      { j.done (if items.isEmpty then [] else List.intercalate separator items ++ [newline]) 0 with
        reads := false }
  match numbers.map intOf? with
  | [some last] => write 1 1 last
  | [some first, some last] => write first 1 last
  | [some first, some step, some last] => write first step last
  | [] => j.complain 1 ("missing operand" ++ j.hint)
  | found =>
    match (numbers.zip found).find? (·.2.isNone) with
    | some (bad, _) =>
      j.complain 1 ("invalid floating point argument: '" ++ Bytes.text bad ++ "'" ++ j.hint)
    | none => j.complain 1 ("extra operand '" ++ Bytes.text (numbers.getLast?.getD []) ++ "'" ++ j.hint)

end LoopTuner.Shell.Filter
