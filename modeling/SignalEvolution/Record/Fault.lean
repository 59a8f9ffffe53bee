import SignalEvolution.Record.Gene
import SignalEvolution.Tree.Path

/-! # Faults of gene records

Before a JSON value is read as a gene record its structure is examined, and
everything that is wrong with it is reported: missing fields first, then wrong
fields, then the nodes of the tree from the root on.
-/
namespace SignalEvolution

inductive NodeFault where
  | notObject
  | unknownType (name : String)
  | missingType
  | childrenNotList

inductive RecordFault where
  | notObject
  | missing (field : String)
  | unsupportedVersion (version : String)
  | versionNotText
  | invalidGeneId (found : Json)
  | lineageNotObject
  | node (path : Tree.Path) (fault : NodeFault)

namespace NodeFault

def message : NodeFault → String
  | notObject => "node must be an object"
  | unknownType name => "unknown node_type '" ++ name ++ "'"
  | missingType => "missing node_type"
  | childrenNotList => "children must be an array"

def ofType? (fields : List (String × Json)) : Option NodeFault :=
  match (Entries.find? "node_type" fields).bind Json.text? with
  | none => some missingType
  | some name => if (NodeType.ofName? name).isSome then none else some (unknownType name)

end NodeFault

namespace RecordFault

def pathText (path : Tree.Path) : String :=
  path.foldl (fun text i => text ++ ".children[" ++ toString i ++ "]") "ast"

def message : RecordFault → String
  | notObject => "payload must be a JSON object"
  | missing field => "missing required field '" ++ field ++ "'"
  | unsupportedVersion version => "unsupported schema_version '" ++ version ++ "'"
  | versionNotText => "schema_version must be a string"
  | invalidGeneId found => "gene_id must be 16 lowercase hex characters, got " ++ found.compact
  | lineageNotObject => "lineage must be an object"
  | node path fault => pathText path ++ ": " ++ fault.message

mutual
/-- Faults of a node and of those below it, each node before its children. -/
def ofNode (path : Tree.Path) : Json → List RecordFault
  | .object fields =>
    ((NodeFault.ofType? fields).map (node path)).toList ++ ofFields path fields
  | _ => [node path .notObject]
/-- Faults below a node with these fields. -/
def ofFields (path : Tree.Path) : List (String × Json) → List RecordFault
  | [] => []
  | (name, v) :: rest => if name = "children" then ofChildren path v else ofFields path rest
def ofChildren (path : Tree.Path) : Json → List RecordFault
  | .null => []
  | .list items => ofItems path 0 items
  | _ => [node path .childrenNotList]
def ofItems (path : Tree.Path) (i : Nat) : List Json → List RecordFault
  | [] => []
  | v :: rest => ofNode (path ++ [i]) v ++ ofItems path (i + 1) rest
end

def requiredFields : List String := ["schema_version", "gene_id", "ast", "lineage"]

def ofVersion : Json → List RecordFault
  | .text v => if v = GeneRecord.currentVersion then [] else [unsupportedVersion v]
  | _ => [versionNotText]

def ofGeneId (v : Json) : List RecordFault :=
  if (v.text?.map Gene.isValidId).getD false then [] else [invalidGeneId v]

def ofLineage (v : Json) : List RecordFault := if v.isObject then [] else [lineageNotObject]

def all : Json → List RecordFault
  | .object fields =>
    let examine (name : String) (check : Json → List RecordFault) : List RecordFault :=
      ((Entries.find? name fields).map check).getD []
    (requiredFields.filter fun name => (Entries.find? name fields).isNone).map missing ++
      examine "schema_version" ofVersion ++ examine "gene_id" ofGeneId ++
      examine "lineage" ofLineage ++ examine "ast" (ofNode [])
  | _ => [notObject]

end RecordFault
end SignalEvolution
