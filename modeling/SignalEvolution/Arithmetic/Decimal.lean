import SignalEvolution.Arithmetic.Shortest

/-! # Decimal text of binary64 numbers

Three ways to write the shortest digits, one with four fixed places, and the
reader of plain decimal notation. Reading rounds to the nearest number.
-/
namespace SignalEvolution.Decimal
open Binary Shortest

structure Style where
  tie : Tie
  /-- Decimal exponents that are written without an exponent; `none` for all of them. -/
  plain : Option (Int × Int)
  fraction : Bool
  notANumber : String
  infinity : String

/-- Plain decimal text, for formulas and messages. -/
def plainStyle : Style := ⟨.up, none, false, "NaN", "inf"⟩

/-- Numbers of configuration tables always show a fraction. -/
def tableStyle : Style := ⟨.up, none, true, "nan", "inf"⟩

/-- Numbers of JSON texts change to an exponent below `1e-5` and from `1e16` on. -/
def jsonStyle : Style := ⟨.even, some (-5, 15), true, "null", "null"⟩

def zeros (n : Nat) : List Char := List.replicate n '0'

def positional (digits : List Char) (point : Int) (fraction : Bool) : List Char :=
  if point ≤ 0 then '0' :: '.' :: zeros point.natAbs ++ digits
  else if (digits.length : Int) ≤ point then
    digits ++ zeros (point.natAbs - digits.length) ++ (if fraction then ['.', '0'] else [])
  else digits.take point.natAbs ++ '.' :: digits.drop point.natAbs

def scientific (digits : List Char) (e : Int) : List Char :=
  digits.take 1 ++ (if digits.length ≤ 1 then [] else '.' :: digits.drop 1) ++
    ['e', if e < 0 then '-' else '+'] ++ Nat.toDigits 10 e.natAbs

def magnitudeText (style : Style) (x : Float) : List Char :=
  let d := decimal style.tie x
  let digits := Nat.toDigits 10 d.digits
  let point : Int := if d.digits = 0 then 1 else d.exponent + digits.length
  match style.plain with
  | some (least, greatest) =>
    if least ≤ point - 1 && point - 1 ≤ greatest then positional digits point style.fraction
    else scientific digits (point - 1)
  | none => positional digits point style.fraction

def write (style : Style) (x : Float) : String :=
  if x.isNaN then style.notANumber
  else
    let sign := if isNegative x then ['-'] else []
    if x.isFinite then String.ofList (sign ++ magnitudeText style x)
    else String.ofList sign ++ style.infinity

def plain (x : Float) : String := write plainStyle x

def table (x : Float) : String := write tableStyle x

def json (x : Float) : String := if x.isFinite then write jsonStyle x else "null"

/-- Nearest whole number to `num / den`, a half going to the even neighbour. -/
def divideToEven (num den : Nat) : Nat :=
  let low := num / den
  let rest := 2 * (num % den)
  if den < rest || (rest == den && low % 2 == 1) then low + 1 else low

def fixed (places : Nat) (x : Float) : String :=
  if x.isNaN then "NaN"
  else
    let sign := if isNegative x then ['-'] else []
    if !x.isFinite then String.ofList sign ++ "inf"
    else
      let (m, q) := parts x
      let num := m * Nat.pow 10 places * (if 0 ≤ q then Nat.pow 2 q.natAbs else 1)
      let units := divideToEven num (if 0 ≤ q then 1 else Nat.pow 2 q.natAbs)
      let fractionDigits := Nat.toDigits 10 (units % Nat.pow 10 places)
      String.ofList (sign ++ Nat.toDigits 10 (units / Nat.pow 10 places) ++
        '.' :: zeros (places - fractionDigits.length) ++ fractionDigits)

/-- `digits * 10 ^ exponent`, rounded to nearest. Exponents beyond the range of all numbers
are not raised to powers. -/
def nearest (digits : Nat) (exponent : Int) : Float :=
  if digits = 0 then 0
  else
    let size := (digitCount digits : Int) + exponent
    if 400 < size then infinity
    else if size < -400 then 0
    else Float.ofScientific digits (exponent < 0) exponent.natAbs
where
  infinity : Float := Float.ofBits 0x7ff0000000000000

def digitsValue (cs : List Char) : Nat :=
  cs.foldl (fun n c => 10 * n + (c.toNat - '0'.toNat)) 0

def splitSign : List Char → Bool × List Char
  | '-' :: rest => (true, rest)
  | '+' :: rest => (false, rest)
  | cs => (false, cs)

def exponent? (cs : List Char) : Option Int :=
  let (negative, digits) := splitSign cs
  if digits.isEmpty || !digits.all Char.isDigit then none
  else some (if negative then -(digitsValue digits : Int) else digitsValue digits)

/-- Digits with at most one point, at least one digit, and an optional exponent. -/
def unsigned? (cs : List Char) : Option Float :=
  let whole := cs.takeWhile Char.isDigit
  let afterWhole := cs.dropWhile Char.isDigit
  let (places, rest) := match afterWhole with
    | '.' :: r => (r.takeWhile Char.isDigit, r.dropWhile Char.isDigit)
    | r => ([], r)
  if whole.isEmpty && places.isEmpty then none
  else
    let digits := digitsValue (whole ++ places)
    match rest with
    | [] => some (nearest digits (-(places.length : Int)))
    | c :: r =>
      if c = 'e' || c = 'E' then
        (exponent? r).map fun e => nearest digits (e - places.length)
      else none

/-- Reads a number: decimal notation, or `inf`, `infinity`, `nan` in any case, after an optional sign. -/
def read? (cs : List Char) : Option Float :=
  let (negative, body) := splitSign cs
  let word := body.map Char.toLower
  let magnitude :=
    if word = ['i', 'n', 'f'] || word = ['i', 'n', 'f', 'i', 'n', 'i', 't', 'y'] then
      some nearest.infinity
    else if word = ['n', 'a', 'n'] then some (0.0 / 0.0)
    else unsigned? body
  magnitude.map fun x => if negative then -x else x

end SignalEvolution.Decimal
