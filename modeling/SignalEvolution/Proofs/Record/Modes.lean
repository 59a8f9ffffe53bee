import SignalEvolution.Proofs.Json.Order
import SignalEvolution.Proofs.Record.Migration

/-! # Records in both modes

What is decoded in strict mode is decoded in lenient mode as well, and as the same gene. Only
where a legacy record has a formula in place of a tree the two differ: lenient mode puts the
placeholder there and tags the provenance.
-/
namespace SignalEvolution

variable {now : Instant} {v w : Json} {fields out : List (String × Json)}

/-- Another default fills in for a field that is left out, and another reader may read the field. -/
theorem RecordFields.exists_withDefault {α : Type} (r : RecordFields) {name : String} {a x : α}
    {read other : Reader α} (h : r.withDefault name a read = some x)
    (hother : ∀ room d y, read room d = some y → ∃ z, other room d = some z) (b : α) :
    ∃ y, r.withDefault name b other = some y := by
  unfold withDefault at h ⊢
  split at h
  · exact ⟨b, rfl⟩
  · exact hother _ _ _ h

/-- A provenance is read at any time; the moment only fills in for one that is left out. -/
theorem Provenance.reader_later {room : Document.Room} {d : Document} {p : Provenance}
    (h : reader now room d = some p) (later : Instant) : ∃ q, reader later room d = some q := by
  obtain ⟨f, hf, h⟩ := Option.bind_eq_some_iff.mp h
  obtain ⟨author, hauthor, h⟩ := Option.bind_eq_some_iff.mp h
  obtain ⟨created, hcreated, h⟩ := Option.bind_eq_some_iff.mp h
  obtain ⟨source, hsource, h⟩ := Option.bind_eq_some_iff.mp h
  obtain ⟨tags, htags, -⟩ := Option.bind_eq_some_iff.mp h
  obtain ⟨moment, hmoment⟩ := f.exists_withDefault hcreated (fun _ _ t ht => ⟨t, ht⟩) later
  exact ⟨_, bind_of_some hf (bind_of_some hauthor (bind_of_some hmoment (bind_of_some hsource
    (bind_of_some htags rfl))))⟩

theorem GeneRecord.reader_later {room : Document.Room} {d : Document} {r : GeneRecord}
    (h : reader now room d = some r) (later : Instant) :
    ∃ p, reader later room d = some { r with provenance := p } := by
  obtain ⟨f, hf, h⟩ := Option.bind_eq_some_iff.mp h
  obtain ⟨version, hversion, h⟩ := Option.bind_eq_some_iff.mp h
  obtain ⟨id, hid, h⟩ := Option.bind_eq_some_iff.mp h
  obtain ⟨node, hnode, h⟩ := Option.bind_eq_some_iff.mp h
  obtain ⟨formula, hformula, h⟩ := Option.bind_eq_some_iff.mp h
  obtain ⟨ancestry, hancestry, h⟩ := Option.bind_eq_some_iff.mp h
  obtain ⟨validation, hvalidation, h⟩ := Option.bind_eq_some_iff.mp h
  obtain ⟨provenance, hprovenance, h⟩ := Option.bind_eq_some_iff.mp h
  obtain rfl := Option.some.inj h
  obtain ⟨p, hp⟩ := f.exists_withDefault hprovenance (fun _ _ _ h => Provenance.reader_later h later)
    (.default later)
  exact ⟨p, bind_of_some hf (bind_of_some hversion (bind_of_some hid (bind_of_some hnode
    (bind_of_some hformula (bind_of_some hancestry (bind_of_some hvalidation (bind_of_some hp rfl)))))))⟩

namespace Migration

variable {mode : Mode} {identified complete : Fields}

/-- The provenance of a record with the placeholder's tag after its own ones. -/
def tagged (fields : Fields) : Fields :=
  Entries.insert "tags" (.list (tagsOf fields ++ [.text Provenance.placeholderTag]))
    (fieldsOf (Entries.find? "meta" fields))

/-- What is read as a provenance is so from its fields too; a list counts for none. -/
theorem exists_provenance {p : Provenance}
    (h : (Provenance.reader now).fieldOr "meta" (.default now) fields = some p) :
    ∃ q, (Provenance.reader now).ofJson? (.object (fieldsOf (Entries.find? "meta" fields))) = some q := by
  unfold Reader.fieldOr at h
  cases hfind : Entries.find? "meta" fields with
  | none => exact ⟨_, rfl⟩
  | some v =>
    rw [hfind] at h
    cases v with
    | object inner => exact ⟨p, h⟩
    | list items => exact ⟨_, rfl⟩
    | _ => cases h

/-- The tags that a provenance is read with are the ones that the new tag is put after. -/
theorem tagsOf_eq {tags : List String} (h : (Reader.list Reader.text).fieldOr "tags" []
    (fieldsOf (Entries.find? "meta" fields)) = some tags) : tagsOf fields = tags.map .text := by
  unfold Reader.fieldOr at h
  cases hfind : Entries.find? "tags" (fieldsOf (Entries.find? "meta" fields)) with
  | none => simp_all [tagsOf]
  | some v =>
    have hv : v = Json.texts tags := Reader.texts_eq_some_iff.mp (by simpa [hfind] using h)
    simp [tagsOf, hfind, hv, Json.texts, Json.items?]

theorem ascending_fieldsOf (hfields : (Json.object fields).Ordered) (name : String) :
    Entries.Ascending (fieldsOf (Entries.find? name fields)) := by
  cases hfind : Entries.find? name fields with
  | none => exact .nil
  | some v =>
    have hv := (Json.ordered_object.mp hfields).2 _ (Entries.mem_of_find? hfind)
    cases v with
    | object inner => exact (Json.ordered_object.mp hv).1
    | _ => exact .nil

theorem reader_tagged (hinner : Entries.Ascending (fieldsOf (Entries.find? "meta" fields))) {p : Provenance}
    (h : (Provenance.reader now).fieldOr "meta" (.default now) fields = some p) (later : Instant) :
    ∃ q, (Provenance.reader later).ofJson? (.object (tagged fields)) = some q ∧ q.isPlaceholder = true := by
  have htagged : Entries.Ascending (tagged fields) := Entries.insert_ascending hinner
  obtain ⟨q, hq⟩ := exists_provenance h
  obtain ⟨q, hq⟩ := Provenance.reader_later hq later
  obtain ⟨hauthor, hcreated, hsource, htags⟩ := (Provenance.reader_object_iff hinner.nodup).mp hq
  have hkept : ∀ name, name ≠ "tags" → Entries.find? name (tagged fields) =
      Entries.find? name (fieldsOf (Entries.find? "meta" fields)) :=
    fun name hname => Entries.find?_insert_ne hname ..
  have hnew : Entries.find? "tags" (tagged fields) =
      some (Json.texts (q.tags ++ [Provenance.placeholderTag])) := by
    simp [tagged, Entries.find?_insert_self, tagsOf_eq htags, Json.texts]
  refine ⟨q.tagged Provenance.placeholderTag, (Provenance.reader_object_iff htagged.nodup).mpr ?_, ?_⟩
  · simp only [Reader.fieldOr, hkept "author" (by decide), hkept "created_at" (by decide),
      hkept "source" (by decide), hnew]
    exact ⟨hauthor, hcreated, hsource, Reader.texts_eq_some_iff.mpr rfl⟩
  · simp [Provenance.isPlaceholder, Provenance.tagged]

/-- Strict mode changes no identity, and what it finds valid no mode changes. -/
theorem withGeneId_strict (h : withGeneId .strict fields = .ok out) (mode : Mode) :
    out = fields ∧ withGeneId mode fields = .ok fields := by
  unfold withGeneId at h ⊢
  dsimp only at h ⊢
  split at h
  · next hvalid => exact ⟨(Except.ok.inj h).symm, if_pos hvalid⟩
  · cases h

theorem migrate_of_steps (hlegacy : isLegacy (version? fields) = true)
    (hid : withGeneId mode fields = .ok identified) (htree : withTree mode (withLineage identified) = .ok complete) :
    migrate mode (.object fields) =
      .ok (.object (Entries.insert "schema_version" (.text GeneRecord.currentVersion) complete)) := by
  have hversion : version? fields ≠ some GeneRecord.currentVersion := by
    intro hcurrent
    simp [hcurrent, isLegacy_currentVersion] at hlegacy
  rw [migrate]
  simp only [if_neg hversion, hlegacy]
  exact bind_of_ok hid (bind_of_ok htree rfl)

/-- Whether a value is a legacy record without a tree of its own. -/
def lacksTree : Json → Bool
  | .object fields => isLegacy (version? fields) && !hasTree fields
  | _ => false

/-- A legacy record after all steps of its migration, with this tree. -/
def formed (t : Tree) (fields : Fields) : Fields :=
  Entries.insert "schema_version" (.text GeneRecord.currentVersion) (withNode t fields)

theorem find?_formed {name : String} (t : Tree) (hversion : name ≠ "schema_version") (hast : name ≠ "ast")
    (fields : Fields) : Entries.find? name (formed t fields) = Entries.find? name fields := by
  rw [formed, Entries.find?_insert_ne hversion, (withNode_spec t fields).2 name hast]

theorem find?_ast_formed (t : Tree) (fields : Fields) :
    Entries.find? "ast" (formed t fields) = some t.toRecord.toJson.arranged :=
  (Entries.find?_insert_ne (by decide) ..).trans (Entries.find?_insert_self ..)

theorem ascending_formed (t : Tree) (h : Entries.Ascending fields) : Entries.Ascending (formed t fields) :=
  Entries.insert_ascending (Entries.insert_ascending h)

theorem placeholder_complete : placeholder.Complete :=
  Tree.complete_pair rfl trivial (Tree.complete_leaf rfl trivial) (Tree.complete_leaf rfl trivial)

theorem placeholder_finite : placeholder.Every Formula.FiniteKind := by
  have hzero : (0 : Float).isFinite = true := by decide
  refine Tree.every_iff.mpr ⟨trivial, fun c hc => ?_⟩
  rcases List.mem_pair.mp hc with rfl | rfl
  · exact Tree.every_iff.mpr ⟨trivial, by simp⟩
  · exact Tree.every_iff.mpr ⟨hzero, by simp⟩

/-- What strict mode migrates lenient mode migrates too: alike where the record has a tree, with the
placeholder and its tag where strict mode has parsed the formula. -/
theorem migrate_both (hlegacy : isLegacy (version? fields) = true)
    (h : migrate .strict (.object fields) = .ok w) :
    (hasTree fields = true ∧ migrate .lenient (.object fields) = .ok w) ∨
    hasTree fields = false ∧ ∃ t, w = .object (formed t (withLineage fields)) ∧
      migrate .lenient (.object fields) = .ok (.object (formed placeholder (withTag (withLineage fields)))) ∧
      Completes .lenient fields (formed placeholder (withTag (withLineage fields))) := by
  obtain ⟨identified, complete, hid, htree, rfl⟩ := migrate_cases hlegacy h
  obtain ⟨rfl, hid⟩ := withGeneId_strict hid .lenient
  have hast : hasTree (withLineage identified) = hasTree identified := by
    simp only [hasTree, (withLineage_spec identified).2 "ast" (by decide)]
  rcases withTree_cases htree with ⟨hhas, rfl⟩ | ⟨hnone, ⟨-, formula, t, hformula, -, rfl⟩ | ⟨hmode, -⟩⟩
  · have hlenient : withTree .lenient (withLineage identified) = .ok (withLineage identified) := if_pos hhas
    exact .inl ⟨hast.symm.trans hhas, migrate_of_steps hlegacy hid hlenient⟩
  · have hlenient : withTree .lenient (withLineage identified) =
        .ok (withNode placeholder (withTag (withLineage identified))) := by
      simp only [hasTree] at hnone
      simp [withTree, hnone, hformula, Json.text?]
    exact .inr ⟨hast.symm.trans hnone, t, rfl, migrate_of_steps hlegacy hid hlenient,
      completes_of_steps hid hlenient⟩
  · cases hmode

/-- A record that is read with any tree is read with the placeholder and its tag. -/
theorem reader_formed {t : Tree} {r : GeneRecord} (hfields : Entries.Ascending fields)
    (hinner : Entries.Ascending (fieldsOf (Entries.find? "meta" fields)))
    (h : (GeneRecord.reader now).ofJson? (.object (formed t fields)) = some r) (later : Instant) :
    ∃ p, (GeneRecord.reader later).ofJson? (.object (formed placeholder (withTag fields))) =
      some { r with node := placeholder.toRecord, provenance := p } ∧ p.isPlaceholder = true := by
  obtain ⟨hversion, hid, -, hformula, hancestry, hvalidation, hprovenance⟩ :=
    (GeneRecord.reader_object_iff (ascending_formed t hfields).nodup).mp h
  have hkept : ∀ name, name ≠ "ast" → name ≠ "meta" →
      Entries.find? name (formed placeholder (withTag fields)) = Entries.find? name (formed t fields) := by
    intro name hast hmeta
    by_cases hname : name = "schema_version"
    · simp [hname, formed, Entries.find?_insert_self]
    · simp only [find?_formed _ hname hast, (withTag_spec fields).2 name hmeta]
  have hmeta : Entries.find? "meta" (formed t fields) = Entries.find? "meta" fields :=
    find?_formed t (by decide) (by decide) fields
  have htag : Entries.find? "meta" (formed placeholder (withTag fields)) = some (.object (tagged fields)) :=
    (find?_formed placeholder (by decide) (by decide) _).trans (Entries.find?_insert_self ..)
  have hnode := find?_ast_formed placeholder (withTag fields)
  have hread : NodeRecord.reader.ofJson? placeholder.toRecord.toJson.arranged = some placeholder.toRecord :=
    NodeRecord.reader_toJson (NodeRecord.finite_ofTree placeholder_finite)
  rw [Reader.fieldOr, hmeta] at hprovenance
  obtain ⟨p, hp, hmarked⟩ := reader_tagged hinner hprovenance later
  have htagged : Entries.Ascending (withTag fields) := Entries.insert_ascending hfields
  refine ⟨p, (GeneRecord.reader_object_iff (ascending_formed placeholder htagged).nodup).mpr ?_, hmarked⟩
  simp only [Reader.field, Reader.fieldOr, hkept "schema_version" (by decide) (by decide),
    hkept "gene_id" (by decide) (by decide), hkept "formula" (by decide) (by decide),
    hkept "lineage" (by decide) (by decide), hkept "validation" (by decide) (by decide), htag, hnode]
  exact ⟨hversion, hid, hread, hformula, hancestry, hvalidation, hp⟩

theorem all_formed (h : Completes .lenient fields (formed placeholder out)) :
    RecordFault.all (.object (formed placeholder out)) = [] := by
  obtain ⟨id, hid, hvalid⟩ := h.identity
  obtain ⟨lineage, hlineage, -⟩ := h.ancestry
  rw [RecordFault.all_eq_ofNode h.version hid hvalid hlineage (find?_ast_formed placeholder out)]
  exact RecordFault.ofNode_toJson (NodeRecord.toTree_ofTree placeholder_complete) []

theorem lacksTree_eq (hlegacy : isLegacy (version? fields) = true) :
    lacksTree (.object fields) = !hasTree fields := by
  simp [lacksTree, hlegacy]

end Migration

namespace Exchange

open Migration

variable {mode : Mode} {g : ExchangedGene}

theorem current_legacy (hlegacy : isLegacy (version? fields) = true) (mode : Mode) :
    current mode (.object fields) = migrate mode (.object fields) :=
  if_pos hlegacy

/-- Only legacy records depend on the mode, and of these only the ones without a tree. -/
theorem current_both (h : current .strict v = .ok w) :
    (lacksTree v = false ∧ current .lenient v = .ok w) ∨ ∃ fields t, v = .object fields ∧
      lacksTree v = true ∧ w = .object (formed t (withLineage fields)) ∧
      current .lenient v = .ok (.object (formed placeholder (withTag (withLineage fields)))) ∧
      Completes .lenient fields (formed placeholder (withTag (withLineage fields))) := by
  cases v with
  | object fields =>
    by_cases hlegacy : isLegacy (version? fields) = true
    · rw [current_legacy hlegacy] at h
      simp only [current_legacy hlegacy, lacksTree_eq hlegacy]
      rcases migrate_both hlegacy h with ⟨hhas, hw⟩ | ⟨hnone, t, hw, hlenient, hcompletes⟩
      · exact .inl ⟨by simp [hhas], hw⟩
      · exact .inr ⟨fields, t, rfl, by simp [hnone], hw, hlenient, hcompletes⟩
    · have hkept : ∀ mode, current mode (.object fields) = .ok (.object fields) := fun _ => if_neg hlegacy
      rw [hkept] at h
      exact .inl ⟨by simp [lacksTree, hlegacy], (hkept .lenient).trans h⟩
  | _ => exact .inl ⟨rfl, h⟩

theorem current_keeps_tree (hhas : hasTree fields = true) (h : current mode (.object fields) = .ok w) :
    ∃ out, w = .object out ∧ Entries.find? "ast" out = Entries.find? "ast" fields := by
  by_cases hlegacy : isLegacy (version? fields) = true
  · rw [current_legacy hlegacy] at h
    obtain ⟨identified, complete, hid, htree, rfl⟩ := migrate_cases hlegacy h
    exact ⟨_, rfl, (completes_of_steps hid htree).treeKept hhas⟩
  · have hkept : current mode (.object fields) = .ok (.object fields) := if_neg hlegacy
    exact ⟨fields, (Except.ok.inj (hkept.symm.trans h)).symm, rfl⟩

/-- Lenient mode reads the same record as strict mode, but for the moment. -/
theorem decode_lenient_same (htree : lacksTree v = false) (h : decode .strict now v = .ok g) (later : Instant) :
    ∃ p, decode .lenient later v = .ok { g with provenance := p } ∧ (now = later → p = g.provenance) := by
  obtain ⟨w, r, hcurrent, hfaults, hread, hgene⟩ := decode_eq_ok_iff.mp h
  rcases current_both hcurrent with ⟨-, hlenient⟩ | ⟨fields, t, -, hlacks, -⟩
  · obtain ⟨p, hp⟩ := GeneRecord.reader_later hread later
    obtain ⟨hversion, hid, root, hroot, rfl⟩ := GeneRecord.toGene_eq_ok_iff.mp hgene
    refine ⟨p, decode_eq_ok_iff.mpr ⟨w, _, hlenient, hfaults, hp,
      GeneRecord.toGene_eq_ok_iff.mpr ⟨hversion, hid, root, hroot, rfl⟩⟩, ?_⟩
    rintro rfl
    exact congrArg GeneRecord.provenance (Option.some.inj (hp.symm.trans hread))
  · simp [htree] at hlacks

/-- Lenient mode puts the placeholder where strict mode has parsed a formula. -/
theorem decode_lenient_placeholder (hv : v.Ordered) (hlacks : lacksTree v = true)
    (h : decode .strict now v = .ok g) (later : Instant) :
    ∃ p, decode .lenient later v = .ok ⟨{ g.gene with root := placeholder }, g.validation, p⟩ ∧
      p.isPlaceholder = true := by
  obtain ⟨w, r, hcurrent, -, hread, hgene⟩ := decode_eq_ok_iff.mp h
  rcases current_both hcurrent with ⟨hnot, -⟩ | ⟨fields, t, rfl, -, rfl, hlenient, hcompletes⟩
  · simp [hlacks] at hnot
  · have hmeta : Entries.find? "meta" (withLineage fields) = Entries.find? "meta" fields :=
      (withLineage_spec fields).2 "meta" (by decide)
    have hinner : Entries.Ascending (fieldsOf (Entries.find? "meta" (withLineage fields))) := by
      rw [hmeta]
      exact ascending_fieldsOf hv "meta"
    have hfields : Entries.Ascending (withLineage fields) :=
      Entries.insert_ascending (Json.ordered_object.mp hv).1
    obtain ⟨p, hp, hmarked⟩ := reader_formed hfields hinner hread later
    obtain ⟨hversion, hid, root, -, rfl⟩ := GeneRecord.toGene_eq_ok_iff.mp hgene
    exact ⟨p, decode_eq_ok_iff.mpr ⟨_, _, hlenient, all_formed hcompletes, hp,
      GeneRecord.toGene_eq_ok_iff.mpr
        ⟨hversion, hid, placeholder, NodeRecord.toTree_ofTree placeholder_complete, rfl⟩⟩, hmarked⟩

/-- What strict mode decodes lenient mode decodes too, at any time, with the same identity,
generation, ancestry and measured performance. The trees differ only where a legacy record has none
of its own: then lenient mode gives the placeholder and marks the provenance. A tree that is sent
is never changed. Values that are read from texts are all ordered. -/
theorem lenient_decodes_strict :
    (∀ (v : Json) (now later : Instant) (g : ExchangedGene), v.Ordered → decode .strict now v = .ok g →
      ∃ l, decode .lenient later v = .ok l ∧ l.gene.id = g.gene.id ∧
        l.gene.generation = g.gene.generation ∧ l.gene.lineage = g.gene.lineage ∧
        l.validation = g.validation ∧
        (lacksTree v = false → l.gene.root = g.gene.root ∧ (now = later → l = g)) ∧
        (lacksTree v = true → l.gene.root = placeholder ∧ l.provenance.isPlaceholder = true)) ∧
    (∀ (fields : Fields) (mode : Mode) (w : Json), hasTree fields = true →
      current mode (.object fields) = .ok w →
        ∃ out, w = .object out ∧ Entries.find? "ast" out = Entries.find? "ast" fields) ∧
    ∀ (s : String) (v : Json), Json.ofText s = some v → v.Ordered := by
  refine ⟨fun v now later g hv h => ?_, fun _ _ _ => current_keeps_tree, fun _ _ => Json.ordered_ofText⟩
  cases htree : lacksTree v with
  | false =>
    obtain ⟨p, hp, hsame⟩ := decode_lenient_same htree h later
    exact ⟨_, hp, rfl, rfl, rfl, rfl, fun _ => ⟨rfl, fun hnow => by simp [hsame hnow]⟩, nofun⟩
  | true =>
    obtain ⟨p, hp, hmarked⟩ := decode_lenient_placeholder hv htree h later
    exact ⟨_, hp, rfl, rfl, rfl, rfl, nofun, fun _ => ⟨rfl, hmarked⟩⟩

/-- A text of a record with a formula only, decoded a day later, and a record with a tree that is
empty but sent. -/
theorem lenient_decodes_strict_formula :
    let now : Instant := ⟨⟨2024, 2, 28, by decide, by decide, by decide⟩, ⟨9, 30, 0, 0, by decide⟩⟩
    let later : Instant := ⟨⟨2024, 2, 29, by decide, by decide, by decide⟩, ⟨9, 30, 0, 0, by decide⟩⟩
    let s := "\x7b\"formula\": \"close > 1.5\", \"gene_id\": \"0123456789abcdef\", " ++
      "\"lineage\": null, \"meta\": \x7b\"tags\": [\"daily\"]\x7d\x7d"
    let sent : Fields := [("ast", .object []), ("gene_id", .text "0123456789abcdef")]
    (∃ v g l, Json.ofText s = some v ∧ v.Ordered ∧ decode .strict now v = .ok g ∧
      decode .lenient later v = .ok l ∧ l.gene.id = g.gene.id ∧ l.gene.generation = g.gene.generation ∧
      l.gene.lineage = g.gene.lineage ∧ l.validation = g.validation ∧
      l.gene.root = placeholder ∧ l.provenance.isPlaceholder = true) ∧
    hasTree sent = true ∧ ∃ w, current .lenient (.object sent) = .ok w ∧
      ∃ out, w = .object out ∧ Entries.find? "ast" out = Entries.find? "ast" sent := by
  intro now later s sent
  have hread : (Json.ofText s).any (fun v => lacksTree v && (decode .strict now v).isOk) = true := by
    decide +kernel
  have hsent : (current .lenient (.object sent)).isOk = true := by decide +kernel
  obtain ⟨v, hv, hboth⟩ := (Option.any_eq_true _ _).mp hread
  obtain ⟨hlacks, hok⟩ := Bool.and_eq_true_iff.mp hboth
  obtain ⟨g, hg⟩ := exists_of_isOk hok
  obtain ⟨w, hw⟩ := exists_of_isOk hsent
  have hordered := lenient_decodes_strict.2.2 s v hv
  obtain ⟨l, hl, hid, hgeneration, hlineage, hvalidation, -, hplaceholder⟩ :=
    lenient_decodes_strict.1 v now later g hordered hg
  obtain ⟨hroot, hmarked⟩ := hplaceholder hlacks
  exact ⟨⟨v, g, l, hv, hordered, hg, hl, hid, hgeneration, hlineage, hvalidation, hroot, hmarked⟩,
    rfl, w, hw, lenient_decodes_strict.2.1 sent .lenient w rfl hw⟩

end Exchange
end SignalEvolution
