import SignalEvolution.Digest.Sha256
import SignalEvolution.Formula.Reader
import SignalEvolution.Record.Gene

/-! # Migration of legacy records

Records without a version or with a version below 1 are brought to the current
one: identity, ancestry and tree are completed and all else is kept. A record
that has only a formula is parsed in strict mode; in lenient mode it gets a tree
that stands in for it, and a tag that says so.
-/
namespace SignalEvolution.Migration

abbrev Fields := List (String × Json)

/-- No version, or one that starts with a zero before its point. -/
def isLegacy : Option String → Bool
  | none => true
  | some v => v == "0" || v.startsWith "0."

def version? (fields : Fields) : Option String := (Entries.find? "schema_version" fields).bind Json.text?

def isNeeded : Json → Bool
  | .object fields => isLegacy (version? fields)
  | _ => false

def insertNew (name : String) (value : Json) (fields : Fields) : Fields :=
  match Entries.find? name fields with
  | some _ => fields
  | none => Entries.insert name value fields

/-- An identity made from the content of a record. -/
def contentId (fields : Fields) : String := Sha256.shortDigest (Json.object fields).compact

def withGeneId (mode : Mode) (fields : Fields) : Except Problem Fields :=
  let current := (Entries.find? "gene_id" fields).bind Json.text?
  if (current.map Gene.isValidId).getD false then .ok fields
  else match mode with
    | .strict => .error (.record ("legacy payload has invalid gene_id " ++ Text.quotedOption current))
    | .lenient => .ok (Entries.insert "gene_id" (.text (contentId fields)) fields)

/-- The fields of an object, none of another value. -/
def fieldsOf (v : Option Json) : Fields := (v.bind Json.fields?).getD []

/-- Completes the ancestry; its generation may stand beside it. -/
def withLineage (fields : Fields) : Fields :=
  let generation := ((Entries.find? "generation" fields).bind Json.natural?).getD 0
  let lineage := insertNew "generation" (.integer generation) (insertNew "mutation_type" .null
    (insertNew "parent_ids" (.list []) (fieldsOf (Entries.find? "lineage" fields))))
  Entries.insert "lineage" (.object lineage) fields

/-- Stands in for a formula that is not parsed. -/
def placeholder : Tree := Tree.compare .greater (Tree.series .close) (Tree.constant 0)

def withTag (fields : Fields) : Fields :=
  let provenance := fieldsOf (Entries.find? "meta" fields)
  let tags := ((Entries.find? "tags" provenance).bind Json.items?).getD []
  let tagged := tags ++ [Json.text Provenance.placeholderTag]
  Entries.insert "meta" (.object (Entries.insert "tags" (.list tagged) provenance)) fields

def withNode (t : Tree) (fields : Fields) : Fields :=
  Entries.insert "ast" t.toRecord.toJson.arranged fields

/-- Makes a tree for a record that has none. -/
def withTree (mode : Mode) (fields : Fields) : Except Problem Fields :=
  if (Entries.find? "ast" fields).any Json.isObject then .ok fields
  else match (Entries.find? "formula" fields).bind Json.text?, mode with
    | none, _ => .error (.record "legacy payload has neither ast nor formula")
    | some formula, .strict => (Formula.parse .strict formula).map (withNode · fields)
    | some _, .lenient => .ok (withNode placeholder (withTag fields))

def migrate (mode : Mode) : Json → Except Problem Json
  | .object fields =>
    let version := version? fields
    if version = some GeneRecord.currentVersion then .ok (.object fields)
    else if !isLegacy version then .error (.schema (version.getD ""))
    else do
      let fields ← withGeneId mode fields
      let fields ← withTree mode (withLineage fields)
      return .object (Entries.insert "schema_version" (.text GeneRecord.currentVersion) fields)
  | _ => .error (.record "payload must be a JSON object")

end SignalEvolution.Migration
