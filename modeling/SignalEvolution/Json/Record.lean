import SignalEvolution.Json.Document

/-! # Records in JSON documents

A record is read from an object by the names of its fields, or from a list by
their order. A field given twice, a field of the wrong type and a missing field
without default fail; fields of other names are passed over.
-/
namespace SignalEvolution

/-- Reads a value from a document, with the room left for nesting. -/
abbrev Reader (α : Type) := (room : Document.Room) → Document → Option α

namespace Reader
open Document

variable {α β : Type}

def bool : Reader Bool
  | _, .bool b => some b
  | _, _ => none

def text : Reader String
  | _, .text s => s
  | _, _ => none

def number : Reader Float
  | _, .number (.integer n) => some (Binary.ofInt n)
  | _, .number (.double x) => some x
  | _, _ => none

def natural : Reader Nat
  | _, .number (.integer n) => if 0 ≤ n then some n.toNat else none
  | _, _ => none

def json : Reader Json := fun room d => d.toJson? room

def optional (read : Reader α) : Reader (Option α)
  | _, .null => some none
  | room, d => (read room d).map some

def items (read : Reader α) (room : Room) : List Document → Option (List α)
  | [] => some []
  | d :: rest => do
    let x ← read room d
    let xs ← items read room rest
    return x :: xs

def list (read : Reader α) : Reader (List α)
  | room, .list ds => (enter room).bind fun room => items read room ds
  | _, _ => none

def entries (read : Reader α) (room : Room) :
    List (Option String × Document) → Option (List (String × α))
  | [] => some []
  | (name, d) :: rest => do
    let name ← name
    let x ← read room d
    let xs ← entries read room rest
    return (name, x) :: xs

/-- Values under any names; of several under one name the last stays. -/
def table (read : Reader α) : Reader (Table α)
  | room, .object fields =>
    (enter room).bind fun room => (entries read room fields).map Table.ofList
  | _, _ => none

/-- One of several names, alone or over nothing in an object. -/
def choice (name : α → String) (all : List α) : Reader α
  | _, .text s => s.bind fun s => all.find? fun a => name a == s
  | room, .object [(some s, .null)] =>
    (enter room).bind fun _ => all.find? fun a => name a == s
  | _, _ => none

end Reader

structure RecordFields where
  room : Document.Room
  fields : List (String × Document)

namespace RecordFields
open Document

/-- Keeps the known fields of an object, each of which may occur once. -/
def known (names : List String) : List (Option String × Document) → Option (List (String × Document))
  | [] => some []
  | (name, d) :: rest => do
    let name ← name
    let others ← known names rest
    if !names.contains name then return others
    else if others.any fun e => e.1 == name then none
    else return (name, d) :: others

def ofDocument (names : List String) (room : Room) : Document → Option RecordFields
  | .object fields => (enter room).bind fun room => (known names fields).map (⟨room, ·⟩)
  | .list items =>
    (enter room).bind fun room =>
      if names.length < items.length then none else some ⟨room, names.zip items⟩
  | _ => none

def required (r : RecordFields) (name : String) (read : Reader α) : Option α :=
  (Entries.find? name r.fields).bind (read r.room)

def withDefault (r : RecordFields) (name : String) (default : α) (read : Reader α) : Option α :=
  match Entries.find? name r.fields with
  | none => some default
  | some d => read r.room d

end RecordFields

namespace Reader

def record {α : Type} (names : List String) (build : RecordFields → Option α) : Reader α :=
  fun room d => (RecordFields.ofDocument names room d).bind build

/-- Leaves the items of a list after the first few unread. -/
def firstItems {α : Type} (count : Nat) (read : Reader α) : Reader α
  | room, .list items => read room (.list (items.take count))
  | room, d => read room d

def ofText? {α : Type} (read : Reader α) (s : String) : Option α :=
  (Document.ofText? s).bind (read Document.textRoom)

/-- Reads a JSON value that was taken in before; its nesting is not limited again. -/
def ofJson? {α : Type} (read : Reader α) (v : Json) : Option α := read none (.ofJson v)

end Reader
end SignalEvolution
