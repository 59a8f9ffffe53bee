import SignalEvolution.Record.Ancestry
import SignalEvolution.Record.Node
import SignalEvolution.Record.Provenance
import SignalEvolution.Record.Validation

/-! # Exchanged genes

A gene record couples a tree with its ancestry, its measured performance and its
provenance. The formula is there for the reader's eye only.
-/
namespace SignalEvolution

structure GeneRecord where
  schemaVersion : String
  geneId : String
  node : NodeRecord
  formula : Option String := none
  ancestry : AncestryRecord
  validation : Validation := {}
  provenance : Provenance

/-- A gene with all that a record adds to it. -/
structure ExchangedGene where
  gene : Gene
  validation : Validation
  provenance : Provenance

namespace GeneRecord

/-- The version of the records that are written and of those that are read as they are. -/
def currentVersion : String := "1.0"

def ofGene (g : Gene) (validation : Validation) (provenance : Provenance) : GeneRecord :=
  { schemaVersion := currentVersion, geneId := g.id, node := g.root.toRecord, formula := some g.formula,
    ancestry := ⟨g.lineage, g.generation⟩, validation, provenance }

/-- The gene of a record with a current version, a valid identity and a well-formed tree. -/
def toGene (r : GeneRecord) : Except Problem ExchangedGene :=
  if r.schemaVersion ≠ currentVersion then .error (.schema r.schemaVersion)
  else if !Gene.isValidId r.geneId then .error (.record ("invalid gene_id '" ++ r.geneId ++ "'"))
  else do
    let root ← r.node.toTree
    let gene : Gene :=
      { root, id := r.geneId, generation := r.ancestry.generation, lineage := r.ancestry.lineage }
    return { gene, validation := r.validation, provenance := r.provenance }

def toJson (r : GeneRecord) : Json :=
  .object ([("schema_version", .text r.schemaVersion), ("gene_id", .text r.geneId),
      ("ast", JsonForm.toJson r.node)] ++
    Json.optionalField "formula" .text r.formula ++
    [("lineage", JsonForm.toJson r.ancestry), ("validation", JsonForm.toJson r.validation),
      ("meta", r.provenance.toJson)])

def reader (now : Instant) : Reader GeneRecord :=
  Reader.record ["schema_version", "gene_id", "ast", "formula", "lineage", "validation", "meta"] fun r => do
    let schemaVersion ← r.required "schema_version" Reader.text
    let geneId ← r.required "gene_id" Reader.text
    let node ← r.required "ast" JsonForm.reader
    let formula ← r.withDefault "formula" none (Reader.optional Reader.text)
    let ancestry ← r.required "lineage" JsonForm.reader
    let validation ← r.withDefault "validation" {} JsonForm.reader
    let provenance ← r.withDefault "meta" (Provenance.default now) (Provenance.reader now)
    return { schemaVersion, geneId, node, formula, ancestry, validation, provenance }

def text (r : GeneRecord) : String := r.toJson.pretty

def ofText (now : Instant) (s : String) : Except Problem GeneRecord :=
  Problem.json.orValue (Reader.ofText? (reader now) s)

def ofJson (now : Instant) (v : Json) : Except Problem GeneRecord :=
  Problem.json.orValue (Reader.ofJson? (reader now) v)

end GeneRecord
end SignalEvolution
