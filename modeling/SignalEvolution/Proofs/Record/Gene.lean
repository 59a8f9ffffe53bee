import SignalEvolution.Proofs.Record.Node
import SignalEvolution.Proofs.Time.Instant
import SignalEvolution.Record.Gene

/-! # Gene records read back

Ancestry, measured performance, provenance and whole gene records are read back from their
JSON forms, and the record of a gene becomes that gene. From an object a record is read field
by field.
-/
namespace SignalEvolution

variable {fields : List (String × Json)} {now : Instant}

theorem AncestryRecord.reader_toJson (a : AncestryRecord) :
    (JsonForm.reader : Reader AncestryRecord).ofJson? (JsonForm.toJson a).arranged = some a := by
  obtain ⟨f, hf, hread⟩ := Reader.exists_holds [("parent_ids", .texts a.lineage.parents),
    ("mutation_type", .ofOption .text a.lineage.mutation), ("generation", .integer a.generation)]
    (by simp) ["parent_ids", "mutation_type", "generation"]
  have hmutation : (Reader.optional Reader.text).ofJson? (Json.ofOption .text a.lineage.mutation).arranged =
      some a.lineage.mutation := by
    cases a.lineage.mutation <;> rfl
  refine (hread _).trans ?_
  refine bind_of_some (hf.withDefault (by simp) rfl (Reader.texts_ofJson? _) _) ?_
  refine bind_of_some (hf.withDefault (by simp) rfl hmutation _) ?_
  exact bind_of_some (hf.withDefault (by simp) rfl (Reader.natural_ofJson? _) _) rfl

theorem Validation.reader_toJson (v : Validation) (hv : ∀ e ∈ v.metrics.entries, e.2.isFinite = true) :
    (JsonForm.reader : Reader Validation).ofJson? (JsonForm.toJson v).arranged = some v := by
  obtain ⟨f, hf, hread⟩ := Reader.exists_holds [("status", JsonForm.toJson v.status),
    ("metrics", .ofTable Json.number v.metrics)] (by simp) ["status", "metrics"]
  have hstatus : (JsonForm.reader : Reader ValidationStatus).ofJson? (JsonForm.toJson v.status).arranged =
      some v.status := by
    cases v.status <;> decide
  have hmetrics := Reader.table_ofJson? v.metrics fun e he => Reader.number_ofJson? (hv e he)
  refine (hread _).trans ?_
  refine bind_of_some (hf.withDefault (by simp) rfl hstatus _) ?_
  exact bind_of_some (hf.withDefault (by simp) rfl hmetrics _) rfl

theorem Provenance.reader_toJson (p : Provenance) (now : Instant) :
    (Provenance.reader now).ofJson? p.toJson.arranged = some p := by
  obtain ⟨f, hf, hread⟩ := Reader.exists_holds [("author", .text p.author),
    ("created_at", .text p.createdAt.text), ("source", .text p.source), ("tags", .texts p.tags)]
    (by simp) ["author", "created_at", "source", "tags"]
  have hcreated : instantReader.ofJson? (Json.text p.createdAt.text).arranged = some p.createdAt := by
    change (some p.createdAt.text).bind Instant.ofText? = some p.createdAt
    rw [Option.bind_some, Instant.ofText?_text]
  refine (hread _).trans ?_
  refine bind_of_some (hf.withDefault (by simp) rfl rfl _) ?_
  refine bind_of_some (hf.withDefault (by simp) rfl hcreated _) ?_
  refine bind_of_some (hf.withDefault (by simp) rfl rfl _) ?_
  exact bind_of_some (hf.withDefault (by simp) rfl (Reader.texts_ofJson? _) _) rfl

/-- Provenance is read from an object field by field. -/
theorem Provenance.reader_object_iff {p : Provenance} (hn : (fields.map Prod.fst).Nodup) :
    (reader now).ofJson? (.object fields) = some p ↔
      Reader.text.fieldOr "author" (default now).author fields = some p.author ∧
      instantReader.fieldOr "created_at" now fields = some p.createdAt ∧
      Reader.text.fieldOr "source" (default now).source fields = some p.source ∧
      (Reader.list Reader.text).fieldOr "tags" [] fields = some p.tags := by
  obtain ⟨f, hf, hread⟩ := Reader.exists_mirror hn ["author", "created_at", "source", "tags"]
  rw [reader, hread, hf.withDefault (by simp), hf.withDefault (by simp), hf.withDefault (by simp),
    hf.withDefault (by simp)]
  simp only [Option.bind_eq_bind, Option.bind_eq_some_iff]
  constructor
  · rintro ⟨author, hauthor, created, hcreated, source, hsource, tags, htags, heq⟩
    obtain rfl := Option.some.inj heq
    exact ⟨hauthor, hcreated, hsource, htags⟩
  · rintro ⟨hauthor, hcreated, hsource, htags⟩
    exact ⟨_, hauthor, _, hcreated, _, hsource, _, htags, rfl⟩

namespace GeneRecord

/-- All numbers of a record are finite. -/
structure Finite (r : GeneRecord) : Prop where
  node : r.node.Finite
  metrics : ∀ e ∈ r.validation.metrics.entries, e.2.isFinite = true

def jsonFields (r : GeneRecord) : List (String × Json) :=
  [("schema_version", .text r.schemaVersion), ("gene_id", .text r.geneId),
      ("ast", JsonForm.toJson r.node)] ++
    Json.optionalField "formula" .text r.formula ++
    [("lineage", JsonForm.toJson r.ancestry), ("validation", JsonForm.toJson r.validation),
      ("meta", r.provenance.toJson)]

theorem toJson_eq (r : GeneRecord) : r.toJson = .object r.jsonFields := rfl

theorem nodup_jsonFields (r : GeneRecord) : (r.jsonFields.map Prod.fst).Nodup := by
  unfold jsonFields
  cases r.formula <;> simp [Json.optionalField]

theorem find?_jsonFields (r : GeneRecord) :
    Entries.find? "schema_version" r.jsonFields = some (.text r.schemaVersion) ∧
    Entries.find? "gene_id" r.jsonFields = some (.text r.geneId) ∧
    Entries.find? "ast" r.jsonFields = some (JsonForm.toJson r.node) ∧
    Entries.find? "formula" r.jsonFields = r.formula.map .text ∧
    Entries.find? "lineage" r.jsonFields = some (JsonForm.toJson r.ancestry) ∧
    Entries.find? "validation" r.jsonFields = some (JsonForm.toJson r.validation) ∧
    Entries.find? "meta" r.jsonFields = some r.provenance.toJson := by
  unfold jsonFields
  cases r.formula <;> simp [Json.optionalField, Entries.find?]

/-- A record whose numbers are finite is read back from its JSON form. -/
theorem reader_toJson {r : GeneRecord} (hr : r.Finite) (now : Instant) :
    (reader now).ofJson? r.toJson.arranged = some r := by
  obtain ⟨hversion, hid, hnode, hformula, hlineage, hvalidation, hmeta⟩ := r.find?_jsonFields
  obtain ⟨f, hf, hread⟩ := Reader.exists_holds r.jsonFields r.nodup_jsonFields
    ["schema_version", "gene_id", "ast", "formula", "lineage", "validation", "meta"]
  rw [toJson_eq]
  refine (hread _).trans ?_
  refine bind_of_some (hf.required (by simp) hversion rfl) ?_
  refine bind_of_some (hf.required (by simp) hid rfl) ?_
  refine bind_of_some (hf.required (by simp) hnode (NodeRecord.reader_toJson hr.node)) ?_
  refine bind_of_some (hf.optional (by simp) hformula fun _ _ => rfl) ?_
  refine bind_of_some (hf.required (by simp) hlineage r.ancestry.reader_toJson) ?_
  refine bind_of_some (hf.withDefault (by simp) hvalidation (r.validation.reader_toJson hr.metrics) _) ?_
  exact bind_of_some (hf.withDefault (by simp) hmeta (r.provenance.reader_toJson now) _) rfl

/-- A record is read from an object field by field. -/
theorem reader_object_iff {r : GeneRecord} (hn : (fields.map Prod.fst).Nodup) :
    (reader now).ofJson? (.object fields) = some r ↔
      Reader.text.field "schema_version" fields = some r.schemaVersion ∧
      Reader.text.field "gene_id" fields = some r.geneId ∧
      NodeRecord.reader.field "ast" fields = some r.node ∧
      (Reader.optional Reader.text).fieldOr "formula" none fields = some r.formula ∧
      JsonForm.reader.field "lineage" fields = some r.ancestry ∧
      JsonForm.reader.fieldOr "validation" {} fields = some r.validation ∧
      (Provenance.reader now).fieldOr "meta" (.default now) fields = some r.provenance := by
  obtain ⟨f, hf, hread⟩ := Reader.exists_mirror hn
    ["schema_version", "gene_id", "ast", "formula", "lineage", "validation", "meta"]
  rw [reader, hread, hf.required (by simp), hf.required (by simp), hf.required (by simp),
    hf.withDefault (by simp), hf.required (by simp), hf.withDefault (by simp), hf.withDefault (by simp)]
  simp only [Option.bind_eq_bind, Option.bind_eq_some_iff]
  constructor
  · rintro ⟨version, hversion, id, hid, node, hnode, formula, hformula, ancestry, hancestry,
      validation, hvalidation, provenance, hprovenance, heq⟩
    obtain rfl := Option.some.inj heq
    exact ⟨hversion, hid, hnode, hformula, hancestry, hvalidation, hprovenance⟩
  · rintro ⟨hversion, hid, hnode, hformula, hancestry, hvalidation, hprovenance⟩
    exact ⟨_, hversion, _, hid, _, hnode, _, hformula, _, hancestry, _, hvalidation, _, hprovenance, rfl⟩

theorem toGene_eq_ok_iff {r : GeneRecord} {g : ExchangedGene} : r.toGene = .ok g ↔
    r.schemaVersion = currentVersion ∧ Gene.isValidId r.geneId = true ∧
      ∃ root, r.node.toTree = .ok root ∧
        g = ⟨⟨root, r.geneId, r.ancestry.generation, r.ancestry.lineage⟩, r.validation, r.provenance⟩ := by
  unfold toGene
  constructor
  · intro h
    split at h
    · cases h
    · next hversion =>
      split at h
      · cases h
      · next hid =>
        obtain ⟨root, hroot, h⟩ := bind_eq_ok h
        exact ⟨not_not.mp hversion, by simpa using hid, root, hroot, (Except.ok.inj h).symm⟩
  · rintro ⟨hversion, hid, root, hroot, rfl⟩
    rw [if_neg (not_not.mpr hversion), if_neg (by simpa using hid)]
    exact bind_of_ok hroot rfl

end GeneRecord
end SignalEvolution
