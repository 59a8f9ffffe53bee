import SignalEvolution.Json.Document
import SignalEvolution.Toml.Dialect

/-! # Tokens of TOML documents

Strings in their four forms, numbers, moments, and the blanks, comments and line
ends between them. Every reader gives what it read and the text after it.
-/
namespace SignalEvolution.Toml

variable (d : Dialect)

def isSpace (c : Char) : Bool := c == ' ' || c == '\t'

def skipSpace (cs : List Char) : List Char := cs.dropWhile isSpace

/-- What may stand in strings and comments as it is: no control characters but tabs. -/
def isPlain (c : Char) : Bool := c == '\t' || (0x20 ≤ c.toNat && c.toNat != 0x7f)

def lineEnd? : List Char → Option (List Char)
  | '\n' :: rest => some rest
  | '\r' :: '\n' :: rest => some rest
  | _ => none

def skipComment : List Char → List Char
  | '#' :: rest => rest.dropWhile isPlain
  | cs => cs

def skipLines : (fuel : Nat) → List Char → List Char
  | 0, cs => cs
  | fuel + 1, cs =>
    let rest := skipComment (skipSpace cs)
    match lineEnd? rest with
    | some rest => skipLines fuel rest
    | none => rest

def endOfLine? (cs : List Char) : Option (List Char) :=
  match skipComment (skipSpace cs) with
  | [] => some []
  | rest => lineEnd? rest

/-- A character by its number, in `width` hexadecimal digits. -/
def codePoint? (width : Nat) (cs : List Char) : Option (Char × List Char) := do
  let digits := cs.take width
  if digits.length < width then none
  let n ← digits.foldlM (fun n c => (Document.hexDigit? c).map (16 * n + ·)) 0
  if n.isValidChar then return (Char.ofNat n, cs.drop width) else none

def escaped? : List Char → Option (Char × List Char)
  | 'b' :: rest => some ('\x08', rest)
  | 't' :: rest => some ('\t', rest)
  | 'n' :: rest => some ('\n', rest)
  | 'f' :: rest => some ('\x0c', rest)
  | 'r' :: rest => some ('\r', rest)
  | '"' :: rest => some ('"', rest)
  | '\\' :: rest => some ('\\', rest)
  | 'u' :: rest => codePoint? 4 rest
  | 'U' :: rest => codePoint? 8 rest
  | 'e' :: rest => if d.shortEscapes then some ('\x1b', rest) else none
  | 'x' :: rest => if d.shortEscapes then codePoint? 2 rest else none
  | _ => none

/-- A string on one line, with escapes. The text read so far is kept in reverse. -/
def basic? : (fuel : Nat) → (read : List Char) → List Char → Option (String × List Char)
  | 0, _, _ => none
  | fuel + 1, read, cs =>
    match cs with
    | [] => none
    | '"' :: rest => some (String.ofList read.reverse, rest)
    | '\\' :: rest => (escaped? d rest).bind fun (c, rest) => basic? fuel (c :: read) rest
    | c :: rest => if isPlain c then basic? fuel (c :: read) rest else none

def literal? (cs : List Char) : Option (String × List Char) :=
  let isContent (c : Char) : Bool := isPlain c && c != '\''
  match cs.dropWhile isContent with
  | '\'' :: rest => some (String.ofList (cs.takeWhile isContent), rest)
  | _ => none

def skipFirstLineEnd (cs : List Char) : List Char := (lineEnd? cs).getD cs

def endsLine (cs : List Char) : Bool := (lineEnd? (skipSpace cs)).isSome

/-- Passes over blanks and line ends. A carriage return is part of a line end or left standing. -/
def skipBlankLines : List Char → List Char
  | ' ' :: rest | '\t' :: rest | '\n' :: rest | '\r' :: '\n' :: rest => skipBlankLines rest
  | cs => cs

/-- A string over several lines, closed by three quotes, before which two more may stand. -/
def lines? (quote : Char) (escapes : Bool) : (fuel : Nat) → (read : List Char) → List Char →
    Option (String × List Char)
  | 0, _, _ => none
  | fuel + 1, read, cs =>
    let run := (cs.takeWhile (· == quote)).length
    if 3 ≤ run then
      let extra := Nat.min (run - 3) 2
      some (String.ofList (List.replicate extra quote ++ read).reverse, cs.drop (extra + 3))
    else match lineEnd? cs with
      | some rest =>
        let ending := if d.keepsReturns && cs.head? == some '\r' then ['\n', '\r'] else ['\n']
        lines? quote escapes fuel (ending ++ read) rest
      | none =>
        match cs with
        | [] => none
        | '\\' :: rest =>
          if !escapes then lines? quote escapes fuel ('\\' :: read) rest
          else if endsLine rest then lines? quote escapes fuel read (skipBlankLines rest)
          else (escaped? d rest).bind fun (c, rest) => lines? quote escapes fuel (c :: read) rest
        | c :: rest => if isPlain c then lines? quote escapes fuel (c :: read) rest else none

def string? (cs : List Char) : Option (String × List Char) :=
  match cs with
  | '"' :: '"' :: '"' :: rest => lines? d '"' true (rest.length + 1) [] (skipFirstLineEnd rest)
  | '"' :: rest => basic? d (rest.length + 1) [] rest
  | '\'' :: '\'' :: '\'' :: rest => lines? d '\'' false (rest.length + 1) [] (skipFirstLineEnd rest)
  | '\'' :: rest => literal? rest
  | _ => none

/-- The digits of a whole text in which single underscores may stand between digits. -/
def digits? (isDigit : Char → Bool) : List Char → Option (List Char)
  | [] => none
  | [c] => if isDigit c then some [c] else none
  | c :: '_' :: rest => if isDigit c then (digits? isDigit rest).map (c :: ·) else none
  | c :: rest => if isDigit c then (digits? isDigit rest).map (c :: ·) else none

/-- Digits of a decimal whole number, without needless zeros in front. -/
def decimalDigits? (cs : List Char) : Option (List Char) :=
  match cs with
  | '0' :: _ :: _ => none
  | _ => digits? Char.isDigit cs

def isHexDigit (c : Char) : Bool := (Document.hexDigit? c).isSome

def isOctalDigit (c : Char) : Bool := '0' ≤ c && c ≤ '7'

def isBinaryDigit (c : Char) : Bool := c == '0' || c == '1'

def valueIn (base : Nat) (digits : List Char) : Nat :=
  digits.foldl (fun n c => base * n + (Document.hexDigit? c).getD 0) 0

def whole? (n : Int) : Option Json :=
  if Int64.minValue.toInt ≤ n ∧ n ≤ Int64.maxValue.toInt then some (.integer n) else none

def integer? (cs : List Char) : Option Json :=
  match cs with
  | '0' :: 'x' :: rest => (digits? isHexDigit rest).bind fun ds => whole? (valueIn 16 ds)
  | '0' :: 'o' :: rest => (digits? isOctalDigit rest).bind fun ds => whole? (valueIn 8 ds)
  | '0' :: 'b' :: rest => (digits? isBinaryDigit rest).bind fun ds => whole? (valueIn 2 ds)
  | _ =>
    let (negative, rest) := Decimal.splitSign cs
    (decimalDigits? rest).bind fun ds =>
      let n : Int := valueIn 10 ds
      whole? (if negative then -n else n)

def isExponentMark (c : Char) : Bool := c == 'e' || c == 'E'

/-- A number with a fraction or an exponent, finite but where a dialect lets negative ones overflow. -/
def float? (cs : List Char) : Option Json := do
  let (negative, body) := Decimal.splitSign cs
  if body = ['i', 'n', 'f'] || body = ['n', 'a', 'n'] then (Decimal.read? cs).map .double
  else
    let mantissa := body.takeWhile fun c => !isExponentMark c
    let exponent := body.drop mantissa.length
    let whole ← decimalDigits? (mantissa.takeWhile (· != '.'))
    let places ← match mantissa.dropWhile (· != '.') with
      | [] => if exponent.isEmpty then none else some []
      | _ :: rest => digits? Char.isDigit rest
    let e ← match exponent with
      | [] => some 0
      | _ :: rest =>
        let (below, rest) := Decimal.splitSign rest
        (digits? Char.isDigit rest).map fun ds =>
          let n : Int := valueIn 10 ds
          if below then -n else n
    let x := Decimal.nearest (valueIn 10 (whole ++ places)) (e - places.length)
    if x.isFinite then return .double (if negative then -x else x)
    else if negative && d.negativeOverflow then return .double (-x)
    else none

def isWordChar (c : Char) : Bool :=
  c.isAlphanum || c == '+' || c == '-' || c == '_' || c == '.' || c == ':'

/-- A date with the time that follows it behind a space. -/
def spacedMoment? (word rest : List Char) : Option (Json × List Char) :=
  match rest with
  | ' ' :: rest =>
    let time := rest.takeWhile isWordChar
    (Moment.ofChars? d.secondsOptional (word ++ ' ' :: time)).map fun m =>
      (d.moment m, rest.drop time.length)
  | _ => none

def wordValue? (word : List Char) : Option Json :=
  match word with
  | ['t', 'r', 'u', 'e'] => some (.bool true)
  | ['f', 'a', 'l', 's', 'e'] => some (.bool false)
  | _ =>
    ((Moment.ofChars? d.secondsOptional word).map d.moment).or ((integer? word).or (float? d word))

def word? (cs : List Char) : Option (Json × List Char) :=
  let word := cs.takeWhile isWordChar
  let rest := cs.drop word.length
  (spacedMoment? d word rest).or ((wordValue? d word).map (·, rest))

end SignalEvolution.Toml
