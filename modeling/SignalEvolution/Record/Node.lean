import SignalEvolution.Json.Form
import SignalEvolution.Tree.Basic

/-! # Exchanged form of trees

A node record names its type and its symbol as text. Records become trees by
checked construction only; fields that a type does not use are ignored.
-/
namespace SignalEvolution

structure NodeRecord where
  nodeType : String
  operator : Option String := none
  name : Option String := none
  params : Option (Table Float) := none
  value : Option Float := none
  children : List NodeRecord := []

namespace NodeRecord

def ofKind (children : List NodeRecord) : Kind → NodeRecord
  | .operator op => { nodeType := "operator", operator := op.symbol, children }
  | .comparator cmp => { nodeType := "comparator", operator := cmp.symbol, children }
  | .indicator name params => { nodeType := "indicator", name, params := params, children }
  | .constant x => { nodeType := "constant", value := x, children }
  | .series s => { nodeType := "variable", name := s.name, children }

mutual
def ofTree : Tree → NodeRecord
  | .node k cs => ofKind (ofTrees cs) k
def ofTrees : List Tree → List NodeRecord
  | [] => []
  | t :: ts => ofTree t :: ofTrees ts
end

def required (field : Option String) (name : String) : Except Problem String :=
  match field with
  | some s => .ok s
  | none => .error (.record ("node is missing '" ++ name ++ "'"))

def known {α : Type} (symbol : String) : Option α → Except Problem α
  | some a => .ok a
  | none => .error (.unknownOperator symbol)

def typeOf (text : String) : Except Problem NodeType :=
  match NodeType.ofName? text with
  | some t => .ok t
  | none => .error (.record ("unknown node_type '" ++ text ++ "'"))

/-- The kind a record names; whether an indicator has this name is checked after the children. -/
def kindOf (type : NodeType) (operator name : Option String) (params : Option (Table Float))
    (value : Option Float) : Except Problem Kind :=
  match type with
  | .operator => do
    let symbol ← required operator "operator"
    let op ← known symbol (Operator.ofSymbol? symbol)
    return .operator op
  | .comparator => do
    let symbol ← required operator "operator"
    let cmp ← known symbol (Comparator.ofSymbol? symbol)
    return .comparator cmp
  | .indicator => do
    let name ← required name "name"
    return .indicator name (params.getD Table.empty)
  | .constant =>
    match value with
    | some x => .ok (.constant x)
    | none => .error (.record "constant node without value")
  | .series => do
    let name ← required name "name"
    let s ← Series.ofName name
    return .series s

mutual
def toTree : NodeRecord → Except Problem Tree
  | ⟨nodeType, operator, name, params, value, children⟩ => do
    let type ← typeOf nodeType
    let kind ← kindOf type operator name params value
    let trees ← toTrees children
    Tree.make kind trees
def toTrees : List NodeRecord → Except Problem (List Tree)
  | [] => .ok []
  | r :: rs => do
    let t ← r.toTree
    let ts ← toTrees rs
    return t :: ts
end

def fieldNames : List String := ["node_type", "operator", "name", "params", "value", "children"]

mutual
/-- Fields that are not set are left out, and so is an empty list of children. -/
def toJson : NodeRecord → Json
  | ⟨nodeType, operator, name, params, value, children⟩ =>
    .object ([("node_type", .text nodeType)] ++ Json.optionalField "operator" .text operator ++
      Json.optionalField "name" .text name ++ Json.optionalField "params" (.ofTable Json.number) params ++
      Json.optionalField "value" Json.number value ++
      if children.isEmpty then [] else [("children", .list (toJsonAll children))])
def toJsonAll : List NodeRecord → List Json
  | [] => []
  | r :: rs => r.toJson :: toJsonAll rs
end

/-- Reads a record whose children are read with less and less fuel. -/
def readerWith : (fuel : Nat) → Reader NodeRecord
  | 0 => fun _ _ => none
  | fuel + 1 => Reader.record fieldNames fun r => do
    let nodeType ← r.required "node_type" Reader.text
    let operator ← r.withDefault "operator" none (Reader.optional Reader.text)
    let name ← r.withDefault "name" none (Reader.optional Reader.text)
    let params ← r.withDefault "params" none (Reader.optional (Reader.table Reader.number))
    let value ← r.withDefault "value" none (Reader.optional Reader.number)
    let children ← r.withDefault "children" [] (Reader.list (readerWith fuel))
    return { nodeType, operator, name, params, value, children }

end NodeRecord

/-- A record is nested no deeper than its document. -/
def NodeRecord.reader : Reader NodeRecord := fun room d => NodeRecord.readerWith d.depth room d

instance : JsonForm NodeRecord := ⟨NodeRecord.toJson, NodeRecord.reader⟩

def Tree.toRecord (t : Tree) : NodeRecord := NodeRecord.ofTree t

end SignalEvolution
