import SignalEvolution.Text.Blank
import SignalEvolution.Toml.Token

/-! # TOML documents

A document is a list of assignments under table headers. Each key is given one
value only, and a table is opened by one header only; a header in double brackets
opens the next element of a list of tables. The result is an object; its numbers
need not be finite.
-/
namespace SignalEvolution.Toml

inductive Origin where
  | header
  /-- On the way to a header. -/
  | way
  /-- On the way to a dotted key. -/
  | dots
  deriving DecidableEq

inductive Item where
  | value (v : Json)
  | table (origin : Origin) (entries : List (String × Item))
  /-- A list of tables, each under a header in double brackets; the last one is still open. -/
  | tables (closed : List Json) (last : List (String × Item))

abbrev Items := List (String × Item)

namespace Item

mutual
def toJson : Item → Json
  | value v => v
  | table _ entries => .object (entriesToJson entries)
  | tables closed last => .list (closed ++ [.object (entriesToJson last)])
def entriesToJson : List (String × Item) → List (String × Json)
  | [] => []
  | (name, item) :: rest => (name, item.toJson) :: entriesToJson rest
end

def inside? (change : Items → Option Items) : Item → Option Item
  | value _ => none
  | table origin entries => (change entries).map (table origin)
  | tables closed last => (change last).map (tables closed)

/-- Whether dotted keys may lead through an item: not into tables with a header of their own. -/
def isPassable : Item → Bool
  | value _ => false
  | table origin _ => origin != .header
  | tables _ _ => true

/-- Whether a dotted key may end in a table: no header of its own may have made it. -/
def takesKeys (d : Dialect) : Item → Bool
  | table .dots _ => true
  | table .way _ => d.keysJoinWays
  | _ => false

end Item

/-- Does at the end of a path what a header says, making the tables on the way there. -/
def underHeader? (make? : Option Item → Option Item) : (path : List String) → Items → Option Items
  | [], _ => none
  | [name], items =>
    (make? (Entries.find? name items)).map fun item => Entries.insert name item items
  | name :: path, items =>
    let found := (Entries.find? name items).getD (.table .way [])
    (found.inside? (underHeader? make? path)).map fun item => Entries.insert name item items

def openTable? : Option Item → Option Item
  | none => some (.table .header [])
  | some (.table .way entries) => some (.table .header entries)
  | some _ => none

def openElement? : Option Item → Option Item
  | none => some (.tables [] [])
  | some (.tables closed last) => some (.tables (closed ++ [.object (Item.entriesToJson last)]) [])
  | some _ => none

/-- Gives a value to a key that has none. -/
def assign? (d : Dialect) (v : Json) : (key : List String) → Items → Option Items
  | [], _ => none
  | [name], items =>
    match Entries.find? name items with
    | none => some (Entries.insert name (.value v) items)
    | some _ => none
  | name :: key, items =>
    let found := (Entries.find? name items).getD (.table .dots [])
    if if key.length = 1 then found.takesKeys d else found.isPassable then
      (found.inside? (assign? d v key)).map fun item => Entries.insert name item items
    else none

def within? (change : Items → Option Items) : (path : List String) → Items → Option Items
  | [], items => change items
  | name :: path, items =>
    ((Entries.find? name items).bind fun item => item.inside? (within? change path)).map fun item =>
      Entries.insert name item items

variable (d : Dialect)

def isBareKeyChar (c : Char) : Bool := c.isAlphanum || c == '-' || c == '_'

def simpleKey? (cs : List Char) : Option (String × List Char) :=
  match cs with
  | '"' :: rest => basic? d (rest.length + 1) [] rest
  | '\'' :: rest => literal? rest
  | _ =>
    let name := cs.takeWhile isBareKeyChar
    if name.isEmpty then none else some (String.ofList name, cs.drop name.length)

def names? : (fuel : Nat) → List Char → Option (List String × List Char)
  | 0, _ => none
  | fuel + 1, cs =>
    (simpleKey? d (skipSpace cs)).bind fun (name, rest) =>
      match skipSpace rest with
      | '.' :: rest => (names? fuel rest).map fun (names, rest) => (name :: names, rest)
      | rest => some ([name], rest)

def key? (cs : List Char) : Option (List String × List Char) :=
  (names? d (cs.length + 1) cs).filter fun read => read.1.length ≤ d.depth

def skipInline (cs : List Char) : List Char :=
  if d.inlineLines then skipLines (cs.length + 1) cs else skipSpace cs

mutual
/-- Reads a value with room for so many lists and tables in each other. -/
def value? : (fuel : Nat) → (room : Nat) → List Char → Option (Json × List Char)
  | 0, _, _ => none
  | fuel + 1, room, cs =>
    match cs, room with
    | '"' :: _, _ | '\'' :: _, _ => (string? d cs).map fun (s, rest) => (.text s, rest)
    | '[' :: _, 0 | '\x7b' :: _, 0 => none
    | '[' :: rest, room + 1 => (elements? fuel room rest).map fun (vs, rest) => (.list vs, rest)
    | '\x7b' :: rest, room + 1 =>
      match skipInline d rest with
      | '\x7d' :: rest => some (.object [], rest)
      | rest =>
        (inline? fuel room [] rest).map fun (items, rest) => (.object (Item.entriesToJson items), rest)
    | cs, _ => word? d cs
def elements? : (fuel : Nat) → (room : Nat) → List Char → Option (List Json × List Char)
  | 0, _, _ => none
  | fuel + 1, room, cs =>
    match skipLines (cs.length + 1) cs with
    | ']' :: rest => some ([], rest)
    | rest =>
      (value? fuel room rest).bind fun (first, rest) =>
        match skipLines (rest.length + 1) rest with
        | ']' :: rest => some ([first], rest)
        | ',' :: rest => (elements? fuel room rest).map fun (vs, rest) => (first :: vs, rest)
        | _ => none
def inline? : (fuel : Nat) → (room : Nat) → Items → List Char → Option (Items × List Char)
  | 0, _, _, _ => none
  | fuel + 1, room, items, cs =>
    (key? d cs).bind fun (key, rest) =>
      match skipInline d rest with
      | '=' :: rest =>
        (value? fuel room (skipInline d rest)).bind fun (v, rest) =>
          (assign? d v key items).bind fun items =>
            match skipInline d rest with
            | '\x7d' :: rest => some (items, rest)
            | ',' :: rest =>
              match d.inlineLines, skipInline d rest with
              | true, '\x7d' :: rest => some (items, rest)
              | _, rest => inline? fuel room items rest
            | _ => none
      | _ => none
end

/-- A header and what follows its line; those of list elements have double brackets. -/
def header? (cs : List Char) : Option (Bool × List String × List Char) :=
  let (isElement, cs) := match cs with
    | '[' :: rest => (true, rest)
    | cs => (false, cs)
  (key? d cs).bind fun (path, rest) =>
    match isElement, rest with
    | true, ']' :: ']' :: rest | false, ']' :: rest =>
      (endOfLine? rest).map fun rest => (isElement, path, rest)
    | _, _ => none

def statements? : (fuel : Nat) → (header : List String) → Items → List Char → Option Items
  | 0, _, _, _ => none
  | fuel + 1, header, items, cs =>
    match skipLines (cs.length + 1) cs with
    | [] => some items
    | '[' :: rest =>
      (header? d rest).bind fun (isElement, path, rest) =>
        (underHeader? (if isElement then openElement? else openTable?) path items).bind fun items =>
          statements? fuel path items rest
    | rest =>
      (key? d rest).bind fun (key, rest) =>
        match rest with
        | '=' :: rest =>
          (value? d (rest.length + 1) d.depth (skipSpace rest)).bind fun (v, rest) =>
            (endOfLine? rest).bind fun rest =>
              (within? (assign? d v key) header items).bind fun items => statements? fuel header items rest
        | _ => none

/-- The object of a document; a byte order mark may stand in front. -/
def ofText? (s : String) : Option Json :=
  (statements? d (s.toList.length + 1) [] [] (Text.skipMark s.toList)).map fun items =>
    .object (Item.entriesToJson items)

end SignalEvolution.Toml
