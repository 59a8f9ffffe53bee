import SignalEvolution.Json.Record
import SignalEvolution.Json.Text
import SignalEvolution.Problem

/-! # JSON forms

A type has a JSON form when its values are written as JSON and read from
documents. Fields are written in the order of their declaration.
-/
namespace SignalEvolution

class JsonForm (α : Type) where
  toJson : α → Json
  reader : Reader α

namespace JsonForm

variable {α : Type}

/-- The form of a type whose values have names. -/
@[reducible] def named (name : α → String) (all : List α) : JsonForm α where
  toJson a := .text (name a)
  reader := Reader.choice name all

def ofText (α : Type) [JsonForm α] (s : String) : Except Problem α :=
  Problem.json.orValue (Reader.ofText? reader s)

/-- Reads a value that was taken in before. -/
def ofJson (α : Type) [JsonForm α] (v : Json) : Except Problem α :=
  Problem.json.orValue (Reader.ofJson? reader v)

end JsonForm

namespace Json

def ofOption {α : Type} (write : α → Json) : Option α → Json
  | some a => write a
  | none => null

def ofTable {α : Type} (write : α → Json) (t : Table α) : Json :=
  object (t.entries.map fun e => (e.1, write e.2))

def optionalField {α : Type} (name : String) (write : α → Json) : Option α → List (String × Json)
  | some a => [(name, write a)]
  | none => []

def texts (xs : List String) : Json := list (xs.map text)

mutual
/-- The same value with the fields of all its objects in order. -/
def arranged : Json → Json
  | list items => list (arrangedItems items)
  | object fields => ofFields (arrangedFields fields)
  | v => v
def arrangedItems : List Json → List Json
  | [] => []
  | v :: rest => v.arranged :: arrangedItems rest
def arrangedFields : List (String × Json) → List (String × Json)
  | [] => []
  | (name, v) :: rest => (name, v.arranged) :: arrangedFields rest
end

end Json
end SignalEvolution
