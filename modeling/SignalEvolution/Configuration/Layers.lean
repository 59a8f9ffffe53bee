import SignalEvolution.Configuration.Section
import SignalEvolution.Toml.Document

/-! # Layered configuration

A file is laid over the defaults and variables of the environment over the file.
A variable is named by the prefix of the program and the path of a setting, with
two underscores between the parts; a path leads through fields of objects and
through items of lists. In layers, texts, numbers and truth values stand for each
other where that makes sense.
-/
namespace SignalEvolution

namespace Json

def fieldsOrNone : Json → List (String × Json)
  | object fields => fields
  | _ => []

mutual
/-- Lays a value over another one: objects are joined field by field, all else is replaced. -/
def overlay (base : Json) : Json → Json
  | object fields => object (overlayFields base.fieldsOrNone fields)
  | v => v
def overlayFields (base : List (String × Json)) : List (String × Json) → List (String × Json)
  | [] => base
  | (name, v) :: rest =>
    let under := (Entries.find? name base).getD null
    overlayFields (Entries.insert name (under.overlay v) base) rest
end

def itemsOrNone : Json → List Json
  | list items => items
  | _ => []

inductive Step where
  | field (name : String)
  /-- An item by its index; a negative index counts from the end. -/
  | item (index : Int)

/-- A list with room for an index, nulls where there was nothing, and the position it means. -/
def roomFor (index : Int) (items : List Json) : List Json × Nat :=
  let n := index.natAbs
  if 0 ≤ index then (items ++ List.replicate (n + 1 - items.length) null, n)
  else (List.replicate (n - items.length) null ++ items, items.length - n)

def overlayAt (v : Json) : (path : List Step) → Json → Json
  | [], base => base.overlay v
  | .field name :: path, base =>
    let under := (Entries.find? name base.fieldsOrNone).getD null
    object (Entries.insert name (overlayAt v path under) base.fieldsOrNone)
  | .item index :: path, base =>
    let (items, n) := roomFor index base.itemsOrNone
    list (items.set n (overlayAt v path (items.getD n null)))

end Json

namespace Layers

def isYes (s : String) : Bool := ["true", "on", "yes"].contains s

def isNo (s : String) : Bool := ["false", "off", "no"].contains s

def lowered (s : String) : String := String.ofList (Text.lower s.toList)

/-- A whole number without sign, at most of 64 bits; a plus may stand in front. -/
def naturalText? (cs : List Char) : Option Nat :=
  let digits := match cs with
    | '+' :: rest => rest
    | cs => cs
  if digits.isEmpty || !digits.all Char.isDigit then none
  else
    let n := Decimal.digitsValue digits
    if n < UInt64.size then some n else none

/-- A whole number of 64 bits with a sign. -/
def integerText? (cs : List Char) : Option Int :=
  let (negative, digits) := Decimal.splitSign cs
  if digits.isEmpty || !digits.all Char.isDigit then none
  else
    let n : Int := Decimal.digitsValue digits
    let n := if negative then -n else n
    if Int64.minValue.toInt ≤ n ∧ n ≤ Int64.maxValue.toInt then some n else none

def natural : Reader Nat
  | _, .number (.integer n) => if 0 ≤ n then some n.toNat else none
  | _, .number (.double x) => some (Scalar.toNat (Scalar.round x))
  | _, .bool b => some (if b then 1 else 0)
  | _, .text (some s) =>
    if isYes (lowered s) then some 1 else if isNo (lowered s) then some 0 else naturalText? s.toList
  | _, _ => none

def real : Reader Float
  | _, .number (.integer n) => some (Binary.ofInt n)
  | _, .number (.double x) => some x
  | _, .bool b => some (if b then 1 else 0)
  | _, .text (some s) =>
    if isYes (lowered s) then some 1 else if isNo (lowered s) then some 0 else Decimal.read? s.toList
  | _, _ => none

def truth : Reader Bool
  | _, .number (.integer n) => some (n != 0)
  | _, .number (.double x) => some (x != 0)
  | _, .bool b => some b
  | _, .text (some s) =>
    if isYes (lowered s) || s == "1" then some true
    else if isNo (lowered s) || s == "0" then some false
    else none
  | _, _ => none

def text : Reader String
  | _, .number (.integer n) => some (toString n)
  | _, .number (.double x) => some (Decimal.plain x)
  | _, .bool b => some (if b then "true" else "false")
  | _, .text s => s
  | _, _ => none

/-- One of several names, alone or over anything in an object. -/
def choice {α : Type} (name : α → String) (all : List α) : Reader α
  | _, .text s => s.bind fun s => all.find? fun a => name a == s
  | _, .object [(some s, _)] => all.find? fun a => name a == s
  | _, _ => none

def conversion : Conversion := { longLists := true, natural, real, truth, text, choice }

structure File where
  extension : String
  content : String

/-- Files in layers are TOML 1.1. A moment stands for its text. -/
def dialect : Toml.Dialect where
  shortEscapes := true
  inlineLines := true
  keysJoinWays := true
  secondsOptional := true
  keepsReturns := true
  negativeOverflow := false
  depth := 80
  moment m := .text m.text

def File.read? (f : File) : Option Json :=
  let content := String.ofList (Text.skipMark f.content.toList)
  let v := match f.extension with
    | "toml" => Toml.ofText? dialect content
    | "json" => Json.ofText content
    | _ => none
  v.filter Json.isObject

def isNameChar (c : Char) : Bool := c.isAlphanum || c == '_' || c == '-'

def isSpace (c : Char) : Bool := c == ' ' || c == '\t'

/-- An index of 64 bits with blanks around it and the bracket after it. -/
def index? (cs : List Char) : Option (Int × List Char) :=
  let cs := cs.dropWhile isSpace
  let (mark, digits) := match cs with
    | '-' :: rest => (['-'], rest)
    | cs => ([], cs)
  let number := digits.takeWhile Char.isDigit
  match (digits.drop number.length).dropWhile isSpace with
  | ']' :: rest => (integerText? (mark ++ number)).map (·, rest)
  | _ => none

/-- Steps after each other: a point before each name, brackets around each index. -/
def steps? : (fuel : Nat) → List Char → Option (List Json.Step)
  | _, [] => some []
  | 0, _ => none
  | fuel + 1, '.' :: rest =>
    let name := rest.takeWhile isNameChar
    if name.isEmpty then none
    else (steps? fuel (rest.drop name.length)).map (.field (String.ofList name) :: ·)
  | fuel + 1, '[' :: rest =>
    (index? rest).bind fun (index, rest) => (steps? fuel rest).map (.item index :: ·)
  | _, _ => none

/-- The path that a name stands for, or the name itself where it shows none. -/
def path (name : String) : List Json.Step :=
  let cs := '.' :: name.toList
  (steps? cs.length cs).getD [.field name]

def lay (base : Json) (fields : List (String × Json)) : Json :=
  fields.foldl (fun base e => Json.overlayAt e.2 (path e.1) base) base

/-- What the names of all variables start with, in lower case. -/
def variableStart : List Char := ['t', 'r', 'a', 'd', 'e', 'g', 'e', 'n', 'e', '_', '_']

def pointed : List Char → List Char
  | '_' :: '_' :: rest => '.' :: pointed rest
  | c :: rest => c :: pointed rest
  | [] => []

/-- A truth value, a number or a text, whichever fits first. -/
def variableValue (s : String) : Json :=
  if lowered s == "true" then .bool true
  else if lowered s == "false" then .bool false
  else match integerText? s.toList, Decimal.read? s.toList with
    | some n, _ => .integer n
    | none, some x => .double x
    | none, none => .text s

/-- Lower case of a character, as far as it matters for names in ASCII: one character outside of it,
the sign of the kelvin, has its lower case there. -/
def lowerChar (c : Char) : Char := if c = '\u212a' then 'k' else c.toLower

/-- The setting of a variable, if it is one of this program. -/
def setting? (v : String × String) : Option (String × Json) :=
  let name := v.1.toList.map lowerChar
  if variableStart.isPrefixOf name then
    some (String.ofList (pointed (name.drop variableStart.length)), variableValue v.2)
  else none

/-- The variables in a listing of an environment, which ends each of them with a zero character. -/
def listed (listing : String) : List (String × String) :=
  (Text.splitOn '\x00' listing.toList).filterMap fun entry =>
    (Text.splitFirst? '=' entry).map fun (name, v) => (String.ofList name, String.ofList v)

def variableNames : List String :=
  let start := String.ofList variableStart
  ({} : Configuration).sections.flatMap fun s =>
    s.2.map fun f => (start ++ s.1 ++ "__" ++ f.1).toUpper

def File.ofPath (path content : String) : File :=
  let name := ((Text.splitOn '/' path.toList).getLast?).getD []
  let parts := Text.splitOn '.' name
  { extension := if parts.length < 2 then "" else String.ofList (parts.getLast?.getD []), content }

def build (file : Option File) (environment : List (String × String)) : Except Problem Json := do
  let base ← match file with
    | none => pure (Json.object [])
    | some f => (Problem.layers.orValue f.read?).map fun v => lay (.object []) v.fieldsOrNone
  return lay base (environment.filterMap setting?)

end Layers

def Configuration.ofLayers (file : Option Layers.File) (environment : List (String × String)) :
    Except Problem Configuration := do
  let v ← Layers.build file environment
  Problem.layers.orValue (Reader.ofJson? (Configuration.reader Layers.conversion) v)

end SignalEvolution
