import SignalEvolution.Gene
import SignalEvolution.Json.Form

/-! # Exchanged ancestry -/
namespace SignalEvolution

instance : JsonForm Lineage where
  toJson l := .object [("parent_ids", .texts l.parents), ("mutation_type", .ofOption .text l.mutation)]
  reader := Reader.record ["parent_ids", "mutation_type"] fun r => do
    let parents ← r.withDefault "parent_ids" [] (Reader.list Reader.text)
    let mutation ← r.withDefault "mutation_type" none (Reader.optional Reader.text)
    return { parents, mutation }

/-- The ancestry of a gene together with its generation. -/
structure AncestryRecord where
  lineage : Lineage
  generation : Nat
  deriving DecidableEq

instance : JsonForm AncestryRecord where
  toJson a := .object [("parent_ids", .texts a.lineage.parents),
    ("mutation_type", .ofOption .text a.lineage.mutation), ("generation", .integer a.generation)]
  reader := Reader.record ["parent_ids", "mutation_type", "generation"] fun r => do
    let parents ← r.withDefault "parent_ids" [] (Reader.list Reader.text)
    let mutation ← r.withDefault "mutation_type" none (Reader.optional Reader.text)
    let generation ← r.withDefault "generation" 0 Reader.natural
    return { lineage := { parents, mutation }, generation }

end SignalEvolution
