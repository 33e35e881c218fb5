import LoopTuner.Shell.Tool

/-!
Integer expressions and conditions: the arithmetic of expansions, `expr`, and `test`. Integers have 64
bits and wrap around.
-/

namespace LoopTuner.Shell

/-- The integer of 64 bits that is equal to `n` modulo `2 ^ 64`. -/
def wrap (n : Int) : Int := n.bmod (Nat.pow 2 64)

/-! ## Arithmetic expansion -/

namespace Arithmetic

/-- Why an expression has no value. -/
inductive Fault where
  /-- Something else was expected where the text cannot be read any further. -/
  | expecting (what : String)
  | divisionByZero
  | illegalNumber (text : String)

inductive Token where
  | number (n : Nat)
  | name (s : String)
  | sign (s : String)
  deriving DecidableEq

def signs : List String :=
  ["<<=", ">>=", "&&", "||", "==", "!=", "<=", ">=", "<<", ">>", "+=", "-=", "*=", "/=", "%=",
    "&=", "|=", "^=", "+", "-", "*", "/", "%", "<", ">", "=", "!", "~", "&", "|", "^", "?", ":",
    "(", ")"]

/-- The number that is written in a word with digits of the given base. -/
def basedNumber (base : Nat) (digits : List Char) : Option Nat :=
  digits.foldlM (fun n d =>
    let v := if d.isDigit then d.toNat - '0'.toNat
      else if 'a' ≤ d.toLower ∧ d.toLower ≤ 'f' then d.toLower.toNat - 'a'.toNat + 10 else 99
    if v < base then some (n * base + v) else none) 0

/-- The number of a word in decimal, octal or hexadecimal notation. -/
def wordNumber (word : List Char) : Option Nat :=
  match word with
  | '0' :: x :: digits =>
    if x.toLower = 'x' then basedNumber 16 digits else basedNumber 8 (x :: digits)
  | digits => basedNumber 10 digits

/-- The largest integer, which also stands for larger numerals. -/
def largest : Nat := Nat.pow 2 63 - 1

/-- Reads the tokens of an expression. -/
def tokens : Nat → List Char → Except Fault (List Token)
  | 0, _ => .error (.expecting "EOF")
  | _, [] => .ok []
  | fuel + 1, c :: rest =>
    if c.isWhitespace then tokens fuel rest
    else if c.isDigit then
      match wordNumber ((c :: rest).takeWhile Char.isAlphanum) with
      | none => .error (.expecting "EOF")
      | some n =>
        (tokens fuel ((c :: rest).dropWhile Char.isAlphanum)).map (.number (min n largest) :: ·)
    else if c.isAlpha || c == '_' then
      let isName (c : Char) : Bool := c.isAlphanum || c == '_'
      (tokens fuel (rest.dropWhile isName)).map
        (.name (String.ofList (c :: rest.takeWhile isName)) :: ·)
    else
      match signs.find? fun s => s.toList.isPrefixOf (c :: rest) with
      | some s => (tokens fuel (rest.drop (s.length - 1))).map (.sign s :: ·)
      | none => .error (.expecting "EOF")

inductive Expr where
  | number (n : Int)
  | variable (name : String)
  | unary (sign : String) (e : Expr)
  | binary (sign : String) (a b : Expr)
  | choose (condition a b : Expr)
  | assign (name sign : String) (e : Expr)

def priority (sign : String) : Option Nat :=
  match sign with
  | "*" | "/" | "%" => some 10
  | "+" | "-" => some 9
  | "<<" | ">>" => some 8
  | "<" | "<=" | ">" | ">=" => some 7
  | "==" | "!=" => some 6
  | "&" => some 5
  | "^" => some 4
  | "|" => some 3
  | "&&" => some 2
  | "||" => some 1
  | _ => none

def assignments : List String :=
  ["=", "+=", "-=", "*=", "/=", "%=", "<<=", ">>=", "&=", "|=", "^="]

abbrev Reading := Except Fault (Expr × List Token)

mutual

def readPrimary : Nat → List Token → Reading
  | 0, _ => .error (.expecting "primary")
  | _, [] => .error (.expecting "primary")
  | _, .number n :: rest => .ok (.number n, rest)
  | fuel + 1, .name s :: .sign op :: rest =>
    if assignments.contains op then do
      let (e, rest) ← readAny fuel rest
      .ok (.assign s op e, rest)
    else .ok (.variable s, .sign op :: rest)
  | _, .name s :: rest => .ok (.variable s, rest)
  | fuel + 1, .sign s :: rest => do
    if s = "(" then
      match ← readAny fuel rest with
      | (e, .sign ")" :: rest) => .ok (e, rest)
      | _ => .error (.expecting "')'")
    else if ["-", "+", "!", "~"].contains s then
      let (e, rest) ← readPrimary fuel rest
      .ok (.unary s e, rest)
    else .error (.expecting "primary")

/-- Reads the operators of at least the given priority after a left operand. -/
def readOperators : Nat → Nat → Expr → List Token → Reading
  | 0, _, _, _ => .error (.expecting "EOF")
  | fuel + 1, least, left, rest =>
    match rest with
    | .sign s :: after =>
      match priority s with
      | some p =>
        if least ≤ p then do
          let (right, rest) ← readPrimary fuel after
          let (right, rest) ← readOperators fuel (p + 1) right rest
          readOperators fuel least (.binary s left right) rest
        else .ok (left, rest)
      | none => .ok (left, rest)
    | rest => .ok (left, rest)

def readAny : Nat → List Token → Reading
  | 0, _ => .error (.expecting "primary")
  | fuel + 1, rest => do
    let (left, rest) ← readPrimary fuel rest
    let (e, rest) ← readOperators fuel 1 left rest
    match rest with
    | .sign "?" :: rest =>
      match ← readAny fuel rest with
      | (a, .sign ":" :: rest) =>
        let (b, rest) ← readAny fuel rest
        .ok (.choose e a b, rest)
      | _ => .error (.expecting "':'")
    | rest => .ok (e, rest)

end

abbrev Variables := List (String × Bytes)

def truth (b : Bool) : Int := if b then 1 else 0

def apply (sign : String) (a b : Int) : Except Fault Int :=
  match sign with
  | "*" => .ok (wrap (a * b))
  | "+" => .ok (wrap (a + b))
  | "-" => .ok (wrap (a - b))
  | "/" => if b = 0 then .error .divisionByZero else .ok (wrap (a.tdiv b))
  | "%" => if b = 0 then .error .divisionByZero else .ok (wrap (a.tmod b))
  | "<<" => .ok (wrap (a * Nat.pow 2 (b % 64).toNat))
  | ">>" => .ok (a.fdiv (Nat.pow 2 (b % 64).toNat))
  | "<" => .ok (truth (a < b))
  | "<=" => .ok (truth (a ≤ b))
  | ">" => .ok (truth (b < a))
  | ">=" => .ok (truth (b ≤ a))
  | "==" => .ok (truth (a = b))
  | "!=" => .ok (truth (a ≠ b))
  | "&" => .ok (Int64.ofInt a &&& Int64.ofInt b).toInt
  | "|" => .ok (Int64.ofInt a ||| Int64.ofInt b).toInt
  | "^" => .ok (Int64.ofInt a ^^^ Int64.ofInt b).toInt
  | _ => .error (.expecting "EOF")

def variableValue (bindings : Variables) (name : String) : Except Fault Int :=
  match bindings.find? (·.1 == name) with
  | none => .ok 0
  | some (_, []) => .ok 0
  | some (_, b) =>
    let word := (Bytes.chars b).dropWhile Char.isWhitespace
    let (negative, digits) := match word with
      | '-' :: digits => (true, digits)
      | '+' :: digits => (false, digits)
      | digits => (false, digits)
    match if digits.isEmpty then none else wordNumber digits with
    | some n =>
      if n ≤ largest then .ok (if negative then -(n : Int) else n)
      else .error (.illegalNumber (Bytes.text b))
    | none => .error (.illegalNumber (Bytes.text b))

def setVariable (bindings : Variables) (name : String) (value : Bytes) : Variables :=
  (name, value) :: bindings.filter fun v => v.1 != name

/-- The value of an expression, and the variables after it. -/
def eval : Expr → Variables → Except Fault (Int × Variables)
  | .number n, vs => .ok (wrap n, vs)
  | .variable name, vs => (variableValue vs name).map (·, vs)
  | .unary sign e, vs => do
    let (n, vs) ← eval e vs
    match sign with
    | "-" => return (wrap (-n), vs)
    | "!" => return (truth (n = 0), vs)
    | "~" => return (-n - 1, vs)
    | _ => return (n, vs)
  | .binary sign a b, vs => do
    let (x, vs) ← eval a vs
    if sign = "&&" then
      if x = 0 then return (0, vs)
      let (y, vs) ← eval b vs
      return (truth (y ≠ 0), vs)
    else if sign = "||" then
      if x ≠ 0 then return (1, vs)
      let (y, vs) ← eval b vs
      return (truth (y ≠ 0), vs)
    else
      let (y, vs) ← eval b vs
      return (← apply sign x y, vs)
  | .choose condition a b, vs => do
    let (n, vs) ← eval condition vs
    if n ≠ 0 then eval a vs else eval b vs
  | .assign name sign e, vs => do
    let (n, vs) ← eval e vs
    let value ← if sign = "=" then .ok n else do
      apply (String.ofList sign.toList.dropLast) (← variableValue vs name) n
    return (value, setVariable vs name (bytesOf (toString value)))

/-- The value of the text of an expression. -/
def value (text : String) (bindings : Variables) : Except Fault (Int × Variables) := do
  let ts ← tokens (text.length + 1) text.toList
  match ← readAny (4 * ts.length + 8) ts with
  | (e, []) => eval e bindings
  | _ => .error (.expecting "EOF")

end Arithmetic

/-! ## Conditions -/

namespace Condition

/-- A condition is true or false, or a number in it is not one. -/
abbrev Verdict := Except String Bool

def integer (b : Bytes) : Except String Int :=
  let trimmed := ((b.dropWhile isBlankByte).reverse.dropWhile isBlankByte).reverse
  match intOf? trimmed with
  | some n => .ok n
  | none => .error ("Illegal number: " ++ Bytes.text b)

def compare (op : String) (a b : Bytes) : Option Verdict :=
  let ints (f : Int → Int → Bool) : Option Verdict :=
    some (do return f (← integer a) (← integer b))
  match op with
  | "=" => some (.ok (a == b))
  | "!=" => some (.ok (a != b))
  | "-eq" => ints (· == ·)
  | "-ne" => ints (· != ·)
  | "-lt" => ints fun x y => x < y
  | "-le" => ints fun x y => x ≤ y
  | "-gt" => ints fun x y => y < x
  | "-ge" => ints fun x y => y ≤ x
  | "<" => some (.ok (decide (a < b)))
  | ">" => some (.ok (decide (b < a)))
  | "-nt" | "-ot" | "-ef" => some (.ok false)
  | _ => none

/-- Whether a text is an operator with two operands. -/
def isOperator (op : Bytes) : Bool := (compare (Bytes.text op) [] []).isSome

def examine (files : Files) (op : String) (b : Bytes) : Option Verdict :=
  let name := plainName (Bytes.text b)
  let isDirectory := ["/", ".", "..", "/tmp", "/dev"].contains name
  match op with
  | "-n" => some (.ok (!b.isEmpty))
  | "-z" => some (.ok b.isEmpty)
  | "-e" | "-r" | "-w" =>
    some (.ok ((files.find? name).isSome || isDirectory || name == "/dev/null"))
  | "-f" => some (.ok (files.find? name).isSome)
  | "-d" => some (.ok isDirectory)
  | "-s" => some (.ok ((files.find? name).any fun b => !b.isEmpty))
  | "-x" => some (.ok isDirectory)
  | "-t" | "-L" | "-h" | "-p" => some (.ok false)
  | _ => none

mutual

/-- Reads and judges alternatives. -/
def either (files : Files) : Nat → List Bytes → Except String (Bool × List Bytes)
  | 0, rest => .ok (false, rest)
  | fuel + 1, rest => do
    let (a, rest) ← both files fuel rest
    match rest with
    | op :: after =>
      if op == bytesOf "-o" then do
        let (b, rest) ← either files fuel after
        return (a || b, rest)
      else return (a, rest)
    | [] => return (a, [])

def both (files : Files) : Nat → List Bytes → Except String (Bool × List Bytes)
  | 0, rest => .ok (false, rest)
  | fuel + 1, rest => do
    let (a, rest) ← single files fuel rest
    match rest with
    | op :: after =>
      if op == bytesOf "-a" then do
        let (b, rest) ← both files fuel after
        return (a && b, rest)
      else return (a, rest)
    | [] => return (a, [])

def single (files : Files) : Nat → List Bytes → Except String (Bool × List Bytes)
  | 0, rest => .ok (false, rest)
  | _, [] => .error "argument expected"
  | fuel + 1, first :: rest => do
    match rest with
    | op :: third :: after =>
      match compare (Bytes.text op) first third with
      | some verdict => return (← verdict, after)
      | none => prefixed files fuel first rest
    | [op] =>
      if isOperator op then .error (Bytes.text op ++ ": argument expected")
      else prefixed files fuel first rest
    | [] => prefixed files fuel first []

/-- A condition whose operator comes first, or a text that is true unless empty. -/
def prefixed (files : Files) : Nat → Bytes → List Bytes → Except String (Bool × List Bytes)
  | 0, _, rest => .ok (false, rest)
  | fuel + 1, first, rest => do
    if first == bytesOf "!" && !rest.isEmpty then
      let (a, rest) ← single files fuel rest
      return (!a, rest)
    else if first == bytesOf "(" && !rest.isEmpty then
      match ← either files fuel rest with
      | (a, close :: rest) =>
        if close == bytesOf ")" then return (a, rest) else .error "closing paren expected"
      | _ => .error "closing paren expected"
    else
      match rest with
      | operand :: after =>
        match examine files (Bytes.text first) operand with
        | some verdict => return (← verdict, after)
        | none => return (!first.isEmpty, rest)
      | [] => return (!first.isEmpty, [])

end

/-- Judges the arguments of `test`. -/
def judge (files : Files) (arguments : List Bytes) : Verdict :=
  let arguments := match arguments with
    | [opened, a, b, closed] =>
      if opened == bytesOf "(" && closed == bytesOf ")" then [a, b] else arguments
    | _ => arguments
  match arguments with
  | [] => .ok false
  | [only] => .ok (!only.isEmpty)
  | _ =>
    match either files (4 * arguments.length + 4) arguments with
    | .error e => .error e
    | .ok (b, []) => .ok b
    | .ok (_, rest) =>
      let last := arguments[arguments.length - rest.length - 1]?
      .error (Bytes.text (last.getD []) ++ ": unexpected operator")

end Condition

/-! ## The tool `expr` -/

namespace Expression

def isNull (b : Bytes) : Bool := b.isEmpty || b == bytesOf "0"

/-- Either a value and the rest, or the status and the text of a complaint. -/
abbrev Evaluation := Except String (Bytes × List Bytes)

def priority (op : String) : Option Nat :=
  match op with
  | "|" => some 1
  | "&" => some 2
  | "<" | "<=" | "=" | "==" | "!=" | ">=" | ">" => some 3
  | "+" | "-" => some 4
  | "*" | "/" | "%" => some 5
  | ":" => some 6
  | _ => none

def apply (matchText : Bytes → Bytes → Bytes) (op : String) (a b : Bytes) : Except String Bytes :=
  let ints (f : Int → Int → Int) : Except String Bytes :=
    match intOf? a, intOf? b with
    | some x, some y => .ok (bytesOf (toString (f x y)))
    | _, _ => .error "non-integer argument"
  let order (f : Ordering → Bool) : Except String Bytes :=
    let o := match intOf? a, intOf? b with
      | some x, some y => Ord.compare x y
      | _, _ => if a == b then .eq else if decide (a < b) then .lt else .gt
    .ok (bytesOf (if f o then "1" else "0"))
  match op with
  | "|" => .ok (if !isNull a then a else if isNull b then bytesOf "0" else b)
  | "&" => .ok (if isNull a || isNull b then bytesOf "0" else a)
  | "<" => order (· == .lt)
  | "<=" => order (· != .gt)
  | "=" | "==" => order (· == .eq)
  | "!=" => order (· != .eq)
  | ">=" => order (· != .lt)
  | ">" => order (· == .gt)
  | "+" => ints (· + ·)
  | "-" => ints (· - ·)
  | "*" => ints (· * ·)
  | "/" => if isNull b then .error "division by zero" else ints Int.tdiv
  | "%" => if isNull b then .error "division by zero" else ints Int.tmod
  | _ => .ok (matchText a b)

mutual

def operand (matchText : Bytes → Bytes → Bytes) : Nat → List Bytes → Evaluation
  | 0, _ => .error "syntax error"
  | _, [] => .error "syntax error: missing argument"
  | fuel + 1, first :: rest => do
    if first == bytesOf "(" then
      match ← expression matchText fuel 1 rest with
      | (v, close :: rest) =>
        if close == bytesOf ")" then return (v, rest)
        else .error ("syntax error: expecting ')' instead of '" ++ Bytes.text close ++ "'")
      | _ => .error "syntax error: expecting ')'"
    else if first == bytesOf "length" && !rest.isEmpty then
      let (v, rest) ← operand matchText fuel rest
      return (bytesOf (toString v.length), rest)
    else if first == bytesOf "substr" && 3 ≤ rest.length then
      let (text, rest) ← operand matchText fuel rest
      let (start, rest) ← operand matchText fuel rest
      let (count, rest) ← operand matchText fuel rest
      match intOf? start, intOf? count with
      | some start, some count =>
        let piece := if 1 ≤ start then (text.drop (start.toNat - 1)).take count.toNat else []
        return (piece, rest)
      | _, _ => return ([], rest)
    else if first == bytesOf "index" && 2 ≤ rest.length then
      let (text, rest) ← operand matchText fuel rest
      let (members, rest) ← operand matchText fuel rest
      let place := (text.findIdx? members.contains).elim 0 (· + 1)
      return (bytesOf (toString place), rest)
    else if first == bytesOf "match" && 2 ≤ rest.length then
      let (text, rest) ← operand matchText fuel rest
      let (pattern, rest) ← operand matchText fuel rest
      return (matchText text pattern, rest)
    else return (first, rest)

def operators (matchText : Bytes → Bytes → Bytes) :
    Nat → Nat → Bytes → List Bytes → Evaluation
  | 0, _, _, _ => .error "syntax error"
  | fuel + 1, least, left, rest =>
    match rest with
    | [] => .ok (left, [])
    | op :: after =>
      match priority (Bytes.text op) with
      | some p =>
        if least ≤ p then do
          let (right, rest) ← expression matchText fuel (p + 1) after
          operators matchText fuel least (← apply matchText (Bytes.text op) left right) rest
        else .ok (left, rest)
      | none => .ok (left, rest)

def expression (matchText : Bytes → Bytes → Bytes) : Nat → Nat → List Bytes → Evaluation
  | 0, _, _ => .error "syntax error"
  | fuel + 1, least, rest => do
    let (left, rest) ← operand matchText fuel rest
    operators matchText fuel least left rest

end

/-- Evaluates its arguments; `matchText` tells what a pattern says of a text. -/
def expr (matchText : Bytes → Bytes → Bytes) (j : Job) : Result :=
  if j.arguments.isEmpty then j.complain 2 ("missing operand" ++ j.hint)
  else
    match expression matchText (4 * j.arguments.length + 4) 1 j.arguments with
    | .ok (v, []) => { j.done (v ++ [newline]) (if isNull v then 1 else 0) with reads := false }
    | .ok (_, extra :: _) =>
      j.complain 2 ("syntax error: unexpected argument '" ++ Bytes.text extra ++ "'")
    | .error text => j.complain 2 text

end Expression

end LoopTuner.Shell
