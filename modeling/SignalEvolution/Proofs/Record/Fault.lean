import SignalEvolution.Proofs.Record.Gene
import SignalEvolution.Record.Exchange

/-! # Records without faults

The examination of a JSON value and the checked construction of its gene are independent of
each other. What the construction accepts has no faults.
-/
namespace SignalEvolution
namespace RecordFault

variable {path : Tree.Path}

/-- Only the first list of children is examined. -/
theorem ofFields_eq (path : Tree.Path) (fields : List (String × Json)) :
    ofFields path fields = ((Entries.find? "children" fields).map (ofChildren path)).getD [] := by
  induction fields with
  | nil => rfl
  | cons e fields ih =>
    rw [ofFields, Entries.find?, ih]
    split <;> rfl

theorem ofItems_eq_nil_iff {α : Type} {write : α → Json} {P : α → Prop} {xs : List α}
    (h : ∀ x ∈ xs, ∀ path, ofNode path (write x) = [] ↔ P x) (i : Nat) :
    ofItems path i (xs.map write) = [] ↔ ∀ x ∈ xs, P x := by
  induction xs generalizing i with
  | nil => simp [ofItems]
  | cons x xs ih =>
    obtain ⟨hx, hxs⟩ := List.forall_mem_cons.mp h
    simp only [List.map_cons, ofItems, List.append_eq_nil_iff, hx, ih hxs, List.forall_mem_cons]

theorem ofType?_eq_none_iff {fields : List (String × Json)} {name : String}
    (hfind : Entries.find? "node_type" fields = some (.text name)) :
    NodeFault.ofType? fields = none ↔ ∃ type : NodeType, name = type.name := by
  have htype : NodeFault.ofType? fields =
      if (NodeType.ofName? name).isSome then none else some (.unknownType name) := by
    rw [NodeFault.ofType?, hfind]
    rfl
  simp only [htype, ← NodeType.ofName?_eq_some_iff, ← Option.isSome_iff_exists]
  split <;> simp_all

/-- The JSON form of a record has no faults where the types of all its nodes are known. -/
theorem ofNode_toJson_eq_nil_iff (r : NodeRecord) (path : Tree.Path) :
    ofNode path r.toJson.arranged = [] ↔ ∀ n ∈ r.nodes, ∃ type : NodeType, n.nodeType = type.name := by
  induction r using NodeRecord.induction generalizing path with
  | node r ih =>
    obtain ⟨hname, -, -, -, -, hchildren⟩ := r.find?_jsonFields
    have hfind := Json.find?_arrangedTable r.nodup_jsonFields
    have htype := ofType?_eq_none_iff ((hfind _).trans (congrArg _ hname))
    have hbelow : ofFields path (Json.arrangedTable r.jsonFields).entries = [] ↔
        ∀ c ∈ r.children, ∀ n ∈ c.nodes, ∃ type : NodeType, n.nodeType = type.name := by
      rw [ofFields_eq, hfind, hchildren]
      split
      · next hempty => simp [List.isEmpty_iff.mp hempty]
      · change ofChildren path (Json.list (r.children.map NodeRecord.toJson)).arranged = [] ↔ _
        rw [Json.arranged, Json.arrangedItems_eq, List.map_map, ofChildren]
        exact ofItems_eq_nil_iff (fun c hc => ih c hc) 0
    rw [NodeRecord.forall_mem_nodes, NodeRecord.toJson_eq, Json.arranged_object, ofNode,
      List.append_eq_nil_iff, hbelow]
    simp [htype]

theorem all_toJson_eq_nil_iff (r : GeneRecord) : all r.toJson.arranged = [] ↔
    r.schemaVersion = GeneRecord.currentVersion ∧ Gene.isValidId r.geneId = true ∧
      ∀ n ∈ r.node.nodes, ∃ type : NodeType, n.nodeType = type.name := by
  obtain ⟨hv, hg, hn, -, hl, -, -⟩ := r.find?_jsonFields
  have hfind := Json.find?_arrangedTable r.nodup_jsonFields
  have hversion : ofVersion (Json.text r.schemaVersion).arranged = [] ↔
      r.schemaVersion = GeneRecord.currentVersion := by
    change (if r.schemaVersion = _ then [] else [unsupportedVersion _]) = [] ↔ _
    simp
  have hid : ofGeneId (Json.text r.geneId).arranged = [] ↔ Gene.isValidId r.geneId = true := by
    change (if Gene.isValidId r.geneId then [] else [invalidGeneId _]) = [] ↔ _
    simp
  have hlineage : ofLineage (JsonForm.toJson r.ancestry).arranged = [] := rfl
  have hnode : ofNode [] (JsonForm.toJson r.node).arranged = [] ↔ _ := ofNode_toJson_eq_nil_iff r.node []
  rw [GeneRecord.toJson_eq, Json.arranged_object, all]
  simp [requiredFields, hfind, hv, hg, hn, hl, hversion, hid, hlineage, hnode]

/-- Where a record becomes a tree, its JSON form has no faults. -/
theorem ofNode_toJson {r : NodeRecord} {t : Tree} (h : r.toTree = .ok t) (path : Tree.Path) :
    ofNode path r.toJson.arranged = [] := by
  rw [ofNode_toJson_eq_nil_iff]
  intro n hn
  obtain ⟨k, hk, -⟩ := NodeRecord.exists_toTree_iff.mp ⟨t, h⟩ n hn
  exact ⟨k.nodeType, hk.nodeType⟩

theorem all_toJson {r : GeneRecord} {g : ExchangedGene} (h : r.toGene = .ok g) :
    all r.toJson.arranged = [] := by
  obtain ⟨hversion, hid, root, hroot, -⟩ := GeneRecord.toGene_eq_ok_iff.mp h
  have hnode := (ofNode_toJson_eq_nil_iff r.node []).mp (ofNode_toJson hroot [])
  exact (all_toJson_eq_nil_iff r).mpr ⟨hversion, hid, hnode⟩

end RecordFault

namespace Migration

theorem isNeeded_toJson {r : GeneRecord} (h : r.schemaVersion = GeneRecord.currentVersion) :
    isNeeded r.toJson.arranged = false := by
  have hversion : version? (Json.arrangedTable r.jsonFields).entries = some GeneRecord.currentVersion := by
    rw [version?, Json.find?_arrangedTable r.nodup_jsonFields, r.find?_jsonFields.1, h]
    rfl
  rw [GeneRecord.toJson_eq, Json.arranged_object, isNeeded, hversion]
  simp [isLegacy, GeneRecord.currentVersion]

end Migration

namespace Exchange

variable {mode : Mode} {now : Instant} {v : Json} {g : ExchangedGene}

theorem check_eq_ok_iff : check v = .ok () ↔ RecordFault.all v = [] := by
  unfold check
  cases RecordFault.all v <;> simp

/-- A value is decoded where its current form has no faults and is read as the record of a gene. -/
theorem decode_eq_ok_iff : decode mode now v = .ok g ↔ ∃ w r, current mode v = .ok w ∧
    RecordFault.all w = [] ∧ (GeneRecord.reader now).ofJson? w = some r ∧ r.toGene = .ok g := by
  constructor
  · intro h
    obtain ⟨w, hcurrent, h⟩ := bind_eq_ok h
    obtain ⟨⟨⟩, hcheck, h⟩ := bind_eq_ok h
    obtain ⟨r, hread, h⟩ := bind_eq_ok h
    exact ⟨w, r, hcurrent, check_eq_ok_iff.mp hcheck, orValue_eq_ok hread, h⟩
  · rintro ⟨w, r, hcurrent, hfaults, hread, hgene⟩
    have hofJson : GeneRecord.ofJson now w = .ok r := by
      rw [GeneRecord.ofJson, hread]
      rfl
    exact bind_of_ok hcurrent (bind_of_ok (check_eq_ok_iff.mpr hfaults) (bind_of_ok hofJson hgene))

/-- A record of finite numbers that becomes a gene is decoded from its JSON form. -/
theorem decode_toJson {r : GeneRecord} (hr : r.Finite) (hg : r.toGene = .ok g) (mode : Mode)
    (now : Instant) : decode mode now r.toJson.arranged = .ok g := by
  have hcurrent : current mode r.toJson.arranged = .ok r.toJson.arranged := by
    rw [current, Migration.isNeeded_toJson (GeneRecord.toGene_eq_ok_iff.mp hg).1]
    rfl
  exact decode_eq_ok_iff.mpr
    ⟨_, r, hcurrent, RecordFault.all_toJson hg, GeneRecord.reader_toJson hr now, hg⟩

end Exchange

/-- What becomes a gene has no faults in its JSON form and passes the check. More exactly, a record
becomes a gene where its JSON form has no faults and all its nodes are coherent: the faults that
keep a record from becoming a gene are those of its version, its identity and the types of its nodes. -/
theorem GeneRecord.examination_agrees (r : GeneRecord) :
    (∀ g, r.toGene = .ok g →
      RecordFault.all r.toJson.arranged = [] ∧ Exchange.check r.toJson.arranged = .ok ()) ∧
    ((∃ g, r.toGene = .ok g) ↔
      RecordFault.all r.toJson.arranged = [] ∧ ∀ n ∈ r.node.nodes, n.Coherent) := by
  refine ⟨fun g h => ?_, ?_, ?_⟩
  · have hnone := RecordFault.all_toJson h
    exact ⟨hnone, Exchange.check_eq_ok_iff.mpr hnone⟩
  · rintro ⟨g, h⟩
    obtain ⟨-, -, root, hroot, -⟩ := toGene_eq_ok_iff.mp h
    exact ⟨RecordFault.all_toJson h, NodeRecord.exists_toTree_iff.mp ⟨root, hroot⟩⟩
  · rintro ⟨hnone, hnodes⟩
    obtain ⟨hversion, hid, -⟩ := (RecordFault.all_toJson_eq_nil_iff r).mp hnone
    obtain ⟨root, hroot⟩ := NodeRecord.exists_toTree_iff.mpr hnodes
    exact ⟨_, toGene_eq_ok_iff.mpr ⟨hversion, hid, root, hroot, rfl⟩⟩

/-- A tree with a constant that has no JSON form, and a name between white space. -/
theorem GeneRecord.examination_agrees_nan :
    let r : GeneRecord :=
      { schemaVersion := "1.0", geneId := "0123456789abcdef",
        node := { nodeType := "comparator", operator := some "<>", children := [
          { nodeType := "variable", name := some " HLC3 " },
          { nodeType := "constant", value := some (0 / 0) }] },
        ancestry := ⟨{ parents := [], mutation := none }, 0⟩,
        provenance := .default ⟨⟨2024, 2, 29, by decide, by decide, by decide⟩, ⟨0, 0, 0, 0, by decide⟩⟩ }
    r.toGene.isOk = true ∧
      RecordFault.all r.toJson.arranged = [] ∧ Exchange.check r.toJson.arranged = .ok () := by
  intro r
  have hok : r.toGene.isOk = true := by decide +kernel
  obtain ⟨g, hg⟩ := exists_of_isOk hok
  exact ⟨hok, r.examination_agrees.1 g hg⟩

end SignalEvolution
