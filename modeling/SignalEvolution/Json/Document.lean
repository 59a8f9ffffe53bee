import SignalEvolution.Json.Basic

/-! # JSON documents

A document is what a JSON text says before its numbers and texts are checked:
fields keep their order and repetitions, a number may be too large and a text
may hold half a surrogate pair. What a reader passes over is never checked.
-/
namespace SignalEvolution

inductive Numeral where
  | integer (n : Int)
  | double (x : Float)
  | tooLarge

inductive Document where
  | null
  | bool (b : Bool)
  | number (n : Numeral)
  | text (s : Option String)
  | list (items : List Document)
  | object (fields : List (Option String × Document))

namespace Document

def isSpace (c : Char) : Bool := c == ' ' || c == '\n' || c == '\r' || c == '\t'

def skipSpace (cs : List Char) : List Char := cs.dropWhile isSpace

def hexDigit? (c : Char) : Option Nat :=
  if c.isDigit then some (c.toNat - '0'.toNat)
  else if 'a' ≤ c ∧ c ≤ 'f' then some (c.toNat - 'a'.toNat + 10)
  else if 'A' ≤ c ∧ c ≤ 'F' then some (c.toNat - 'A'.toNat + 10)
  else none

def codeUnit? : List Char → Option (Nat × List Char)
  | a :: b :: c :: d :: rest => do
    let a ← hexDigit? a
    let b ← hexDigit? b
    let c ← hexDigit? c
    let d ← hexDigit? d
    return (((a * 16 + b) * 16 + c) * 16 + d, rest)
  | _ => none

def shortEscape? : Char → Option Char
  | '"' => some '"'
  | '\\' => some '\\'
  | '/' => some '/'
  | 'b' => some '\x08'
  | 'f' => some '\x0c'
  | 'n' => some '\n'
  | 'r' => some '\r'
  | 't' => some '\t'
  | _ => none

/-- The second half of a surrogate pair, where it follows. -/
def lowSurrogate? : List Char → Option (Nat × List Char)
  | '\\' :: 'u' :: rest => (codeUnit? rest).filter fun u => 0xdc00 ≤ u.1 && u.1 ≤ 0xdfff
  | _ => none

/-- A character written by number, `none` for half a pair, and the text after it. -/
def escapedUnit? (cs : List Char) : Option (Option Char × List Char) :=
  (codeUnit? cs).map fun (unit, rest) =>
    if 0xd800 ≤ unit && unit ≤ 0xdbff then
      match lowSurrogate? rest with
      | some (low, rest) =>
        (some (Char.ofNat (0x10000 + (unit - 0xd800) * 0x400 + (low - 0xdc00))), rest)
      | none => (none, rest)
    else if 0xdc00 ≤ unit && unit ≤ 0xdfff then (none, rest)
    else (some (Char.ofNat unit), rest)

/-- Reads to the closing quote. The text read so far is kept in reverse, and lost at half a pair. -/
def string? : (fuel : Nat) → Option (List Char) → List Char → Option (Option String × List Char)
  | 0, _, _ => none
  | fuel + 1, read, cs =>
    match cs with
    | [] => none
    | '"' :: rest => some (read.map fun r => String.ofList r.reverse, rest)
    | '\\' :: 'u' :: rest =>
      (escapedUnit? rest).bind fun (c, rest) =>
        string? fuel (read.bind fun r => c.map (· :: r)) rest
    | '\\' :: e :: rest =>
      (shortEscape? e).bind fun c => string? fuel (read.map (c :: ·)) rest
    | c :: rest => if c.toNat < 0x20 then none else string? fuel (read.map (c :: ·)) rest

/-- Digits of a whole number without needless zeros in front. -/
def wholeDigits? (cs : List Char) : Option (List Char × List Char) :=
  match cs.takeWhile Char.isDigit, cs.dropWhile Char.isDigit with
  | [], _ => none
  | ['0'], rest => some (['0'], rest)
  | '0' :: _, _ => none
  | digits, rest => some (digits, rest)

def fraction? : List Char → Option (Option (List Char) × List Char)
  | '.' :: rest =>
    let digits := rest.takeWhile Char.isDigit
    if digits.isEmpty then none else some (some digits, rest.dropWhile Char.isDigit)
  | cs => some (none, cs)

def exponent? (cs : List Char) : Option (Option Int × List Char) :=
  match cs with
  | c :: rest =>
    if c = 'e' || c = 'E' then
      let (negative, rest) := Decimal.splitSign rest
      let digits := rest.takeWhile Char.isDigit
      if digits.isEmpty then none
      else
        let e : Int := Decimal.digitsValue digits
        some (some (if negative then -e else e), rest.dropWhile Char.isDigit)
    else some (none, cs)
  | [] => some (none, cs)

/-- Whole numbers of 64 bits are kept whole, minus zero apart. -/
def numeral (negative : Bool) (whole : List Char) (places : Option (List Char)) (e : Option Int) :
    Numeral :=
  let n := Decimal.digitsValue whole
  let isWhole := places.isNone && e.isNone
  if isWhole && !negative && n < UInt64.size then .integer n
  else if isWhole && negative && 0 < n && Int64.minValue.toInt ≤ -n then .integer (-n)
  else
    let places := places.getD []
    let x := Decimal.nearest (Decimal.digitsValue (whole ++ places)) (e.getD 0 - places.length)
    if x.isFinite then .double (if negative then -x else x) else .tooLarge

def numeral? (cs : List Char) : Option (Numeral × List Char) := do
  let (negative, cs) := match cs with
    | '-' :: rest => (true, rest)
    | cs => (false, cs)
  let (whole, rest) ← wholeDigits? cs
  let (places, rest) ← fraction? rest
  let (e, rest) ← exponent? rest
  return (numeral negative whole places e, rest)

mutual
/-- Reads one value. Each step of the descent passes a character, so the fuel bounds the text. -/
def value? : (fuel : Nat) → List Char → Option (Document × List Char)
  | 0, _ => none
  | fuel + 1, cs =>
    match skipSpace cs with
    | 'n' :: 'u' :: 'l' :: 'l' :: rest => some (null, rest)
    | 't' :: 'r' :: 'u' :: 'e' :: rest => some (bool true, rest)
    | 'f' :: 'a' :: 'l' :: 's' :: 'e' :: rest => some (bool false, rest)
    | '"' :: rest => (string? fuel (some []) rest).map fun (s, rest) => (text s, rest)
    | '[' :: rest =>
      match skipSpace rest with
      | ']' :: rest => some (list [], rest)
      | rest => (items? fuel rest).map fun (items, rest) => (list items, rest)
    | '\x7b' :: rest =>
      match skipSpace rest with
      | '\x7d' :: rest => some (object [], rest)
      | rest => (fields? fuel rest).map fun (fields, rest) => (object fields, rest)
    | rest => (numeral? rest).map fun (n, rest) => (number n, rest)
def items? : (fuel : Nat) → List Char → Option (List Document × List Char)
  | 0, _ => none
  | fuel + 1, cs =>
    (value? fuel cs).bind fun (first, rest) =>
      match skipSpace rest with
      | ']' :: rest => some ([first], rest)
      | ',' :: rest => (items? fuel rest).map fun (items, rest) => (first :: items, rest)
      | _ => none
def fields? : (fuel : Nat) → List Char → Option (List (Option String × Document) × List Char)
  | 0, _ => none
  | fuel + 1, cs =>
    match skipSpace cs with
    | '"' :: rest =>
      (string? fuel (some []) rest).bind fun (name, rest) =>
        match skipSpace rest with
        | ':' :: rest =>
          (value? fuel rest).bind fun (v, rest) =>
            match skipSpace rest with
            | '\x7d' :: rest => some ([(name, v)], rest)
            | ',' :: rest => (fields? fuel rest).map fun (fields, rest) => ((name, v) :: fields, rest)
            | _ => none
        | _ => none
    | _ => none
end

def ofText? (s : String) : Option Document :=
  let cs := s.toList
  match value? (2 * cs.length + 2) cs with
  | some (d, rest) => if (skipSpace rest).isEmpty then some d else none
  | none => none

/-- How many lists and objects may still be entered, one inside the other; `none` for any number. -/
abbrev Room := Option Nat

/-- Texts may nest 127 lists and objects. -/
def textRoom : Room := some 127

/-- The room left inside a list or an object, if it may be entered. -/
def enter : Room → Option Room
  | none => some none
  | some 0 => none
  | some (n + 1) => some (some n)

mutual
/-- The value of a document: all numbers in range, all texts whole, and not nested too deep. -/
def toJson? (room : Room) : Document → Option Json
  | null => some .null
  | bool b => some (.bool b)
  | number (.integer n) => some (.integer n)
  | number (.double x) => some (.double x)
  | number .tooLarge => none
  | text s => s.map .text
  | list items => (enter room).bind fun room => (itemsToJson? room items).map .list
  | object fields => (enter room).bind fun room => (fieldsToJson? room fields).map .ofFields
def itemsToJson? (room : Room) : List Document → Option (List Json)
  | [] => some []
  | d :: rest => do
    let v ← d.toJson? room
    let vs ← itemsToJson? room rest
    return v :: vs
def fieldsToJson? (room : Room) : List (Option String × Document) → Option (List (String × Json))
  | [] => some []
  | (name, d) :: rest => do
    let name ← name
    let v ← d.toJson? room
    let vs ← fieldsToJson? room rest
    return (name, v) :: vs
end

mutual
def ofJson : Json → Document
  | .null => null
  | .bool b => bool b
  | .integer n => number (.integer n)
  | .double x => number (.double x)
  | .text s => text (some s)
  | .list items => list (itemsOfJson items)
  | .object fields => object (fieldsOfJson fields)
def itemsOfJson : List Json → List Document
  | [] => []
  | v :: rest => ofJson v :: itemsOfJson rest
def fieldsOfJson : List (String × Json) → List (Option String × Document)
  | [] => []
  | (name, v) :: rest => (some name, ofJson v) :: fieldsOfJson rest
end

mutual
def depth : Document → Nat
  | .list items => 1 + itemsDepth items
  | .object fields => 1 + fieldsDepth fields
  | _ => 1
def itemsDepth : List Document → Nat
  | [] => 0
  | d :: rest => Nat.max d.depth (itemsDepth rest)
def fieldsDepth : List (Option String × Document) → Nat
  | [] => 0
  | (_, d) :: rest => Nat.max d.depth (fieldsDepth rest)
end

end Document

def Json.ofText (s : String) : Option Json :=
  (Document.ofText? s).bind fun d => d.toJson? Document.textRoom

end SignalEvolution
