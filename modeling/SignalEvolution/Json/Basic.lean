import SignalEvolution.Arithmetic.Decimal
import SignalEvolution.Table
import SignalEvolution.Text.Quoted

/-! # JSON values

Whole numbers of 64 bits stay whole; every other number is binary64. The fields
of an object stand in the order of their names.
-/
namespace SignalEvolution

inductive Json where
  | null
  | bool (b : Bool)
  | integer (n : Int)
  | double (x : Float)
  | text (s : String)
  | list (items : List Json)
  | object (fields : List (String × Json))

namespace Json

instance : Inhabited Json := ⟨null⟩

def fields? : Json → Option (List (String × Json))
  | object fields => some fields
  | _ => none

def items? : Json → Option (List Json)
  | list items => some items
  | _ => none

def text? : Json → Option String
  | text s => some s
  | _ => none

def natural? : Json → Option Nat
  | integer n => if 0 ≤ n then some n.toNat else none
  | _ => none

def real? : Json → Option Float
  | integer n => some (Binary.ofInt n)
  | double x => some x
  | _ => none

def isObject : Json → Bool
  | object _ => true
  | _ => false

/-- A number; those that are not finite have no JSON form. -/
def number (x : Float) : Json := if x.isFinite then double x else null

/-- An object from fields in any order; the last of several values under one name stays. -/
def ofFields (fields : List (String × Json)) : Json :=
  object (fields.foldl (fun entries e => Entries.insert e.1 e.2 entries) [])

end Json
end SignalEvolution
