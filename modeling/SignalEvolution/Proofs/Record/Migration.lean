import SignalEvolution.Proofs.Record.Examination
import SignalEvolution.Proofs.Text.Hex
import SignalEvolution.Record.Migration

/-! # Migrated records

Migration completes the identity, the ancestry and the tree of a legacy record and keeps all
that was there. What it gives is current: it is not migrated again, and only its tree can
have faults.
-/
namespace SignalEvolution

variable {mode other : Mode} {name key : String} {v w : Json}

namespace RecordFault

theorem ofNode_located (v : Json) (path : Tree.Path) :
    ∀ fault ∈ ofNode path v, ∃ place found, fault = node place found := by
  intro fault hfault
  obtain ⟨below, _, found, -, -, rfl⟩ := mem_ofNode_iff.mp hfault
  exact ⟨path ++ below, found, rfl⟩

theorem all_eq_ofNode {fields ancestry : List (String × Json)} {id : String} {node : Json}
    (hversion : Entries.find? "schema_version" fields = some (.text GeneRecord.currentVersion))
    (hid : Entries.find? "gene_id" fields = some (.text id)) (hvalid : Gene.isValidId id = true)
    (hlineage : Entries.find? "lineage" fields = some (.object ancestry))
    (hnode : Entries.find? "ast" fields = some node) :
    all (.object fields) = ofNode [] node := by
  have hversion' : ofVersion (.text GeneRecord.currentVersion) = [] := by
    rw [ofVersion, if_pos rfl]
  have hid' : ofGeneId (.text id) = [] := if_pos hvalid
  have hlineage' : ofLineage (.object ancestry) = [] := rfl
  rw [all]
  simp [requiredFields, hversion, hid, hlineage, hnode, hversion', hid', hlineage']

end RecordFault

namespace Migration

variable {fields out : Fields}

/-- Whether a record has a tree of its own. -/
def hasTree (fields : Fields) : Bool := (Entries.find? "ast" fields).any Json.isObject

/-- What an ancestry is given where it lacks it; the generation may stand beside the ancestry. -/
def missingAncestry (fields : Fields) : Fields :=
  [("parent_ids", .list []), ("mutation_type", .null),
    ("generation", .integer (((Entries.find? "generation" fields).bind Json.natural?).getD 0 : Nat))]

/-- The tags of a record, none where they are not a list. -/
def tagsOf (fields : Fields) : List Json :=
  ((Entries.find? "tags" (fieldsOf (Entries.find? "meta" fields))).bind Json.items?).getD []

/-- What migration makes of the fields of a record. -/
structure Completes (mode : Mode) (fields out : Fields) : Prop where
  version : Entries.find? "schema_version" out = some (.text "1.0")
  identity : ∃ id, Entries.find? "gene_id" out = some (.text id) ∧ Gene.isValidId id = true
  identityKept : ∀ id, Entries.find? "gene_id" fields = some (.text id) → Gene.isValidId id = true →
    Entries.find? "gene_id" out = some (.text id)
  /-- Entries of an earlier ancestry stay as they are. -/
  ancestry : ∃ lineage, Entries.find? "lineage" out = some (.object lineage) ∧
    ∀ key, Entries.find? key lineage =
      (Entries.find? key (fieldsOf (Entries.find? "lineage" fields))).or
        (Entries.find? key (missingAncestry fields))
  tree : ∃ node, Entries.find? "ast" out = some (.object node)
  treeKept : hasTree fields = true → Entries.find? "ast" out = Entries.find? "ast" fields
  provenanceKept : mode = .strict ∨ hasTree fields = true →
    Entries.find? "meta" out = Entries.find? "meta" fields
  provenanceTagged : mode = .lenient → hasTree fields = false →
    ∃ provenance, Entries.find? "meta" out = some (.object provenance) ∧
      (∀ key, key ≠ "tags" → Entries.find? key provenance =
        Entries.find? key (fieldsOf (Entries.find? "meta" fields))) ∧
      Entries.find? "tags" provenance = some (.list (tagsOf fields ++ [.text "placeholder_ast"]))
  others : ∀ name, name ∉ ["schema_version", "gene_id", "lineage", "ast", "meta"] →
    Entries.find? name out = Entries.find? name fields

theorem find?_insertNew (name : String) (v : Json) (fields : Fields) (key : String) :
    Entries.find? key (insertNew name v fields) =
      (Entries.find? key fields).or (if key = name then some v else none) := by
  unfold insertNew
  by_cases hkey : key = name
  · subst hkey
    cases hfind : Entries.find? key fields with
    | none => simp [Entries.find?_insert]
    | some _ => simp [hfind]
  · cases Entries.find? name fields with
    | none => simp [Entries.find?_insert, hkey]
    | some _ => simp [hkey]

theorem withGeneId_spec (h : withGeneId mode fields = .ok out) :
    (∃ id, Entries.find? "gene_id" out = some (.text id) ∧ Gene.isValidId id = true) ∧
    (∀ id, Entries.find? "gene_id" fields = some (.text id) → Gene.isValidId id = true →
      Entries.find? "gene_id" out = some (.text id)) ∧
    ∀ name, name ≠ "gene_id" → Entries.find? name out = Entries.find? name fields := by
  unfold withGeneId at h
  dsimp only at h
  split at h
  · next hvalid =>
    obtain rfl := Except.ok.inj h
    refine ⟨?_, fun id hid _ => hid, fun name _ => rfl⟩
    cases hfind : Entries.find? "gene_id" fields with
    | none =>
      rw [hfind] at hvalid
      cases hvalid
    | some v =>
      rw [hfind] at hvalid
      cases v with
      | text id => exact ⟨id, rfl, hvalid⟩
      | _ => cases hvalid
  · next hvalid =>
    cases mode with
    | strict => cases h
    | lenient =>
      obtain rfl := Except.ok.inj h
      have hmade : Gene.isValidId (contentId fields) = true := Gene.isValidId_shortDigest _
      refine ⟨⟨contentId fields, ?_, hmade⟩, fun id hid hid' => ?_, fun name hname => ?_⟩
      · exact Entries.find?_insert_self ..
      · rw [hid] at hvalid
        exact absurd hid' hvalid
      · exact Entries.find?_insert_ne hname ..

theorem withLineage_spec (fields : Fields) :
    (∃ lineage, Entries.find? "lineage" (withLineage fields) = some (.object lineage) ∧
      ∀ key, Entries.find? key lineage =
        (Entries.find? key (fieldsOf (Entries.find? "lineage" fields))).or
          (Entries.find? key (missingAncestry fields))) ∧
    ∀ name, name ≠ "lineage" → Entries.find? name (withLineage fields) = Entries.find? name fields := by
  refine ⟨⟨_, Entries.find?_insert_self .., fun key => ?_⟩, fun name hname => ?_⟩
  · rw [find?_insertNew, find?_insertNew, find?_insertNew, Option.or_assoc, Option.or_assoc]
    congr 1
    by_cases hparents : key = "parent_ids"
    · simp [missingAncestry, Entries.find?, hparents]
    · by_cases hmutation : key = "mutation_type"
      · simp [missingAncestry, Entries.find?, hmutation]
      · simp [missingAncestry, Entries.find?, hparents, hmutation, eq_comm]
  · exact Entries.find?_insert_ne hname ..

theorem withTag_spec (fields : Fields) :
    (∃ provenance, Entries.find? "meta" (withTag fields) = some (.object provenance) ∧
      (∀ key, key ≠ "tags" → Entries.find? key provenance =
        Entries.find? key (fieldsOf (Entries.find? "meta" fields))) ∧
      Entries.find? "tags" provenance = some (.list (tagsOf fields ++ [.text "placeholder_ast"]))) ∧
    ∀ name, name ≠ "meta" → Entries.find? name (withTag fields) = Entries.find? name fields := by
  refine ⟨⟨_, Entries.find?_insert_self .., fun key hkey => ?_, ?_⟩, fun name hname => ?_⟩
  · exact Entries.find?_insert_ne hkey ..
  · exact Entries.find?_insert_self ..
  · exact Entries.find?_insert_ne hname ..

theorem withNode_spec (t : Tree) (fields : Fields) :
    (∃ node, Entries.find? "ast" (withNode t fields) = some (.object node)) ∧
    ∀ name, name ≠ "ast" → Entries.find? name (withNode t fields) = Entries.find? name fields := by
  constructor
  · refine ⟨(Json.arrangedTable t.toRecord.jsonFields).entries, ?_⟩
    rw [withNode, Entries.find?_insert_self, NodeRecord.toJson_eq, Json.arranged_object]
  · intro name hname
    exact Entries.find?_insert_ne hname ..

/-- A tree is kept, or read from the formula, or stood in for under a tag. -/
theorem withTree_cases (h : withTree mode fields = .ok out) :
    (hasTree fields = true ∧ out = fields) ∨ hasTree fields = false ∧
      ((mode = .strict ∧ ∃ formula t, Entries.find? "formula" fields = some (.text formula) ∧
          Formula.parse .strict formula = .ok t ∧ out = withNode t fields) ∨
        mode = .lenient ∧ out = withNode placeholder (withTag fields)) := by
  unfold withTree at h
  split at h
  · next htree => exact .inl ⟨htree, (Except.ok.inj h).symm⟩
  · next htree =>
    refine .inr ⟨Bool.eq_false_iff.mpr htree, ?_⟩
    split at h
    · cases h
    · next formula hformula =>
      obtain ⟨v, hfind, htext⟩ := Option.bind_eq_some_iff.mp hformula
      obtain ⟨t, hparse, rfl⟩ := map_eq_ok h
      cases v with
      | text s =>
        obtain rfl := Option.some.inj htext
        exact .inl ⟨rfl, s, t, hfind, hparse, rfl⟩
      | _ => cases htext
    · exact .inr ⟨rfl, (Except.ok.inj h).symm⟩

theorem exists_tree_of_hasTree (h : hasTree fields = true) :
    ∃ node, Entries.find? "ast" fields = some (.object node) := by
  unfold hasTree at h
  cases hfind : Entries.find? "ast" fields with
  | none =>
    rw [hfind] at h
    cases h
  | some v =>
    rw [hfind] at h
    cases v with
    | object node => exact ⟨node, rfl⟩
    | _ => cases h

theorem withTree_keeps (h : withTree mode fields = .ok out) (hast : name ≠ "ast")
    (hmeta : name ≠ "meta") : Entries.find? name out = Entries.find? name fields := by
  rcases withTree_cases h with ⟨-, rfl⟩ | ⟨-, ⟨-, -, t, -, -, rfl⟩ | ⟨-, rfl⟩⟩
  · rfl
  · exact (withNode_spec t fields).2 name hast
  · exact ((withNode_spec placeholder _).2 name hast).trans ((withTag_spec fields).2 name hmeta)

theorem exists_tree_of_withTree (h : withTree mode fields = .ok out) :
    ∃ node, Entries.find? "ast" out = some (.object node) := by
  rcases withTree_cases h with ⟨hhas, rfl⟩ | ⟨-, ⟨-, -, t, -, -, rfl⟩ | ⟨-, rfl⟩⟩
  · exact exists_tree_of_hasTree hhas
  · exact (withNode_spec t fields).1
  · exact (withNode_spec placeholder _).1

theorem withTree_of_hasTree (h : withTree mode fields = .ok out) (hhas : hasTree fields = true) :
    out = fields := by
  rcases withTree_cases h with ⟨-, heq⟩ | ⟨hnone, -⟩
  · exact heq
  · rw [hhas] at hnone
    cases hnone

theorem withTree_strict (h : withTree .strict fields = .ok out) :
    Entries.find? "meta" out = Entries.find? "meta" fields := by
  rcases withTree_cases h with ⟨-, rfl⟩ | ⟨-, ⟨-, -, t, -, -, rfl⟩ | ⟨hmode, -⟩⟩
  · rfl
  · exact (withNode_spec t fields).2 "meta" (by decide)
  · cases hmode

theorem withTree_lenient (h : withTree .lenient fields = .ok out) (hnone : hasTree fields = false) :
    Entries.find? "meta" out = Entries.find? "meta" (withTag fields) := by
  rcases withTree_cases h with ⟨hhas, -⟩ | ⟨-, ⟨hmode, -⟩ | ⟨-, rfl⟩⟩
  · rw [hnone] at hhas
    cases hhas
  · cases hmode
  · exact (withNode_spec placeholder _).2 "meta" (by decide)

theorem isLegacy_currentVersion : isLegacy (some GeneRecord.currentVersion) = false := by
  simp [isLegacy, GeneRecord.currentVersion]

theorem migrate_cases (hlegacy : isLegacy (version? fields) = true)
    (h : migrate mode (.object fields) = .ok w) :
    ∃ identified complete, withGeneId mode fields = .ok identified ∧
      withTree mode (withLineage identified) = .ok complete ∧
      w = .object (Entries.insert "schema_version" (.text GeneRecord.currentVersion) complete) := by
  unfold migrate at h
  dsimp only at h
  split at h
  · next hcurrent =>
    rw [hcurrent, isLegacy_currentVersion] at hlegacy
    cases hlegacy
  · split at h
    · next hnot => simp [hlegacy] at hnot
    · obtain ⟨identified, hid, h⟩ := bind_eq_ok h
      obtain ⟨complete, htree, h⟩ := bind_eq_ok h
      exact ⟨identified, complete, hid, htree, (Except.ok.inj h).symm⟩

theorem migrate_current (hversion : version? fields = some GeneRecord.currentVersion) (mode : Mode) :
    migrate mode (.object fields) = .ok (.object fields) := by
  rw [migrate]
  exact if_pos hversion

/-- Every step leaves alone what the others complete. -/
theorem completes_of_steps {identified complete : Fields} (hid : withGeneId mode fields = .ok identified)
    (htree : withTree mode (withLineage identified) = .ok complete) :
    Completes mode fields
      (Entries.insert "schema_version" (.text GeneRecord.currentVersion) complete) := by
  obtain ⟨hmade, hkept, hidentified⟩ := withGeneId_spec hid
  obtain ⟨⟨lineage, hlineage, hentries⟩, hcompleted⟩ := withLineage_spec identified
  have hbefore : ∀ name, name ≠ "gene_id" → name ≠ "lineage" →
      Entries.find? name (withLineage identified) = Entries.find? name fields := fun name hg hl =>
    (hcompleted name hl).trans (hidentified name hg)
  have hinsert : ∀ name, name ≠ "schema_version" →
      Entries.find? name (Entries.insert "schema_version" (.text GeneRecord.currentVersion) complete) =
        Entries.find? name complete := fun _ hname => Entries.find?_insert_ne hname ..
  have hafter : ∀ name, name ≠ "schema_version" → name ≠ "ast" → name ≠ "meta" →
      Entries.find? name (Entries.insert "schema_version" (.text GeneRecord.currentVersion) complete) =
        Entries.find? name (withLineage identified) := fun name hv ha hm =>
    (hinsert name hv).trans (withTree_keeps htree ha hm)
  have hast : hasTree (withLineage identified) = hasTree fields := by
    rw [hasTree, hasTree, hbefore "ast" (by decide) (by decide)]
  have hprovenance : Entries.find? "meta" (withLineage identified) = Entries.find? "meta" fields :=
    hbefore "meta" (by decide) (by decide)
  have hmissing : missingAncestry identified = missingAncestry fields := by
    rw [missingAncestry, missingAncestry, hidentified "generation" (by decide)]
  rw [hidentified "lineage" (by decide), hmissing] at hentries
  have hgene : Entries.find? "gene_id" (withLineage identified) = Entries.find? "gene_id" identified :=
    hcompleted "gene_id" (by decide)
  constructor
  case version => exact Entries.find?_insert_self ..
  case identity => rwa [hafter "gene_id" (by decide) (by decide) (by decide), hgene]
  case identityKept => rwa [hafter "gene_id" (by decide) (by decide) (by decide), hgene]
  case ancestry =>
    exact ⟨lineage, (hafter "lineage" (by decide) (by decide) (by decide)).trans hlineage, hentries⟩
  case tree =>
    rw [hinsert "ast" (by decide)]
    exact exists_tree_of_withTree htree
  case treeKept =>
    intro hhas
    rw [hinsert "ast" (by decide), ← hbefore "ast" (by decide) (by decide),
      withTree_of_hasTree htree (hast.trans hhas)]
  case provenanceKept =>
    intro hcase
    rw [hinsert "meta" (by decide), ← hprovenance]
    rcases hcase with rfl | hhas
    · exact withTree_strict htree
    · rw [withTree_of_hasTree htree (hast.trans hhas)]
  case provenanceTagged =>
    rintro rfl hnone
    rw [hinsert "meta" (by decide), withTree_lenient htree (hast.trans hnone), tagsOf, ← hprovenance,
      ← tagsOf]
    exact (withTag_spec _).1
  case others =>
    intro name hname
    simp only [List.mem_cons, List.not_mem_nil, or_false, not_or] at hname
    obtain ⟨hversion, hgeneId, hancestry, hnode, hmeta⟩ := hname
    rw [hafter name hversion hnode hmeta, hbefore name hgeneId hancestry]

/-- Migrating a legacy record completes its identity, ancestry and tree and keeps everything else.
The record that it gives is current: it is the same after another migration, it needs none, and
all its faults stand inside its tree. -/
theorem migrate_completes (hlegacy : isLegacy (version? fields) = true)
    (h : migrate mode (.object fields) = .ok w) :
    ∃ out, w = .object out ∧ Completes mode fields out ∧ (∀ again, migrate again w = .ok w) ∧
      isNeeded w = false ∧ ∀ fault ∈ RecordFault.all w, ∃ path found, fault = .node path found := by
  obtain ⟨identified, complete, hid, htree, rfl⟩ := migrate_cases hlegacy h
  have hout := completes_of_steps hid htree
  obtain ⟨id, hgene, hvalid⟩ := hout.identity
  obtain ⟨lineage, hlineage, -⟩ := hout.ancestry
  obtain ⟨node, hnode⟩ := hout.tree
  have hversion : version? (Entries.insert "schema_version" (.text GeneRecord.currentVersion) complete) =
      some GeneRecord.currentVersion := by
    rw [version?, hout.version]
    rfl
  refine ⟨_, rfl, hout, migrate_current hversion, ?_, ?_⟩
  · rw [isNeeded, hversion, isLegacy_currentVersion]
  · rw [RecordFault.all_eq_ofNode hout.version hgene hvalid hlineage hnode]
    exact RecordFault.ofNode_located _ _

/-- A record without a valid identity, whose formula is stood in for and whose ancestry lacks a
generation. -/
theorem migrate_completes_unnamed :
    let fields : Fields := [("formula", .text "RSI(14) < 30"), ("gene_id", .integer 7),
      ("generation", .integer 3), ("lineage", .object [("note", .null), ("parent_ids", .null)]),
      ("meta", .object [("author", .text "lab"), ("tags", .list [.text "daily"])]),
      ("schema_version", .text "0.9")]
    isLegacy (version? fields) = true ∧ ∃ out, migrate .lenient (.object fields) = .ok (.object out) ∧
      Completes .lenient fields out ∧
      (∀ again, migrate again (.object out) = .ok (.object out)) ∧ isNeeded (.object out) = false ∧
      ∀ fault ∈ RecordFault.all (.object out), ∃ path found, fault = .node path found := by
  intro fields
  have hlegacy : isLegacy (version? fields) = true := by decide +kernel
  have hok : (migrate .lenient (.object fields)).isOk = true := by decide +kernel
  obtain ⟨w, hw⟩ := exists_of_isOk hok
  obtain ⟨out, rfl, hout, hrest⟩ := migrate_completes hlegacy hw
  exact ⟨hlegacy, out, hw, hout, hrest⟩

end Migration
end SignalEvolution
