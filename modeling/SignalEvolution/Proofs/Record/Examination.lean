import SignalEvolution.Proofs.Record.Fault
import SignalEvolution.Proofs.Text.Hex

/-! # What the examination of a record finds

The examination goes on below a node that is wrong, so it finds every fault there is, each at the
path that leads to it: what is listed is just what the value has, and nothing is listed just where
the value is a record.
-/
namespace SignalEvolution

namespace Json

variable {v c u : Json} {path : Tree.Path}

/-- The value of a field; what is no object has no fields. -/
def field? (v : Json) (name : String) : Option Json := v.fields?.bind (Entries.find? name)

/-- The values listed as children. -/
def childItems (v : Json) : List Json := ((v.field? "children").bind items?).getD []

/-- The value at a path, each index of which picks a child. -/
def at? (v : Json) : Tree.Path → Option Json
  | [] => some v
  | i :: rest => v.childItems[i]?.bind fun c => c.at? rest

theorem sizeOf_lt_of_mem_childItems (h : c ∈ v.childItems) : sizeOf c < sizeOf v := by
  cases v with
  | object fields =>
    cases hfind : Entries.find? "children" fields with
    | none => simp [childItems, field?, fields?, hfind] at h
    | some w =>
      cases w with
      | list items =>
        have hc : c ∈ items := by simpa [childItems, field?, fields?, hfind, items?] using h
        have hitem := List.sizeOf_lt_of_mem hc
        have hfield := List.sizeOf_lt_of_mem (Entries.mem_of_find? hfind)
        simp only [Prod.mk.sizeOf_spec, list.sizeOf_spec, object.sizeOf_spec] at hfield ⊢
        omega
      | _ => simp [childItems, field?, fields?, hfind, items?] at h
  | _ => simp [childItems, field?, fields?] at h

/-- What holds of a value where it holds of its children holds of every value. -/
theorem childItems_induction {motive : Json → Prop}
    (step : ∀ v : Json, (∀ c ∈ v.childItems, motive c) → motive v) (v : Json) : motive v :=
  step v fun c _ => childItems_induction step c
termination_by sizeOf v
decreasing_by exact sizeOf_lt_of_mem_childItems ‹_›

/-- A node has one of the five types, and a list of children if anything. -/
structure IsNode (v : Json) : Prop where
  type : ∃ type : NodeType, v.field? "node_type" = some (.text type.name)
  children : v.field? "children" = none ∨ v.field? "children" = some .null ∨
    ∃ items, v.field? "children" = some (.list items)

end Json

namespace NodeFault

variable {v : Json} {fault : NodeFault} {fields : List (String × Json)}

/-- A value breaks this rule of nodes. -/
def Applies (v : Json) : NodeFault → Prop
  | notObject => v.isObject = false
  | missingType => v.isObject = true ∧ ∀ name, v.field? "node_type" ≠ some (.text name)
  | unknownType name => v.field? "node_type" = some (.text name) ∧ ∀ type : NodeType, name ≠ type.name
  | childrenNotList => ∃ w, v.field? "children" = some w ∧ w ≠ .null ∧ ∀ items, w ≠ .list items

/-- What is wrong with the children of a node. -/
def ofChildren? (fields : List (String × Json)) : Option NodeFault :=
  match Entries.find? "children" fields with
  | none | some .null | some (.list _) => none
  | some _ => some childrenNotList

/-- All rules that a value breaks, its type before its children. -/
def ofValue : Json → List NodeFault
  | .object fields => (ofType? fields).toList ++ (ofChildren? fields).toList
  | _ => [notObject]

theorem ofType?_eq_some_iff : ofType? fields = some fault ↔
    (fault = missingType ∧ ∀ name, Entries.find? "node_type" fields ≠ some (.text name)) ∨
    ∃ name, fault = unknownType name ∧ Entries.find? "node_type" fields = some (.text name) ∧
      ∀ type : NodeType, name ≠ type.name := by
  have htext : ∀ name, Entries.find? "node_type" fields = some (.text name) ↔
      (Entries.find? "node_type" fields).bind Json.text? = some name := by
    intro name
    rw [Option.bind_eq_some_iff]
    constructor
    · intro h
      exact ⟨_, h, rfl⟩
    · rintro ⟨w, hw, hname⟩
      cases w with
      | text text => rwa [← Option.some.inj hname]
      | _ => cases hname
  have hknown : ∀ name, (NodeType.ofName? name).isSome = true ↔ ∃ type : NodeType, name = type.name := by
    intro name
    simp only [Option.isSome_iff_exists, NodeType.ofName?_eq_some_iff]
  simp only [htext, Ne, ← not_exists, ← hknown, ofType?]
  cases (Entries.find? "node_type" fields).bind Json.text? with
  | none => simp [eq_comm (a := fault)]
  | some name =>
    by_cases hname : (NodeType.ofName? name).isSome = true
    · have hnot : NodeType.ofName? name ≠ none := Option.isSome_iff_ne_none.mp hname
      simp [hnot]
    · have hnone : NodeType.ofName? name = none := by simpa using hname
      simp [hnone, eq_comm (a := fault)]

theorem ofChildren?_eq_some_iff : ofChildren? fields = some fault ↔ fault = childrenNotList ∧
    ∃ w, Entries.find? "children" fields = some w ∧ w ≠ .null ∧ ∀ items, w ≠ .list items := by
  unfold ofChildren?
  cases Entries.find? "children" fields with
  | none => simp
  | some w => cases w <;> simp [eq_comm (a := fault)]

/-- The rules listed are just those that a value breaks. -/
theorem mem_ofValue_iff : fault ∈ ofValue v ↔ fault.Applies v := by
  cases v with
  | object fields =>
    have hfield : ∀ name, (Json.object fields).field? name = Entries.find? name fields := fun _ => rfl
    rw [ofValue, List.mem_append, Option.mem_toList, Option.mem_toList, ofType?_eq_some_iff,
      ofChildren?_eq_some_iff]
    cases fault <;> simp [Applies, hfield, Json.isObject]
  | _ => cases fault <;> simp [ofValue, Applies, Json.isObject, Json.field?, Json.fields?]

/-- A value whose children are no list has none. -/
theorem childItems_of_applies (h : childrenNotList.Applies v) : v.childItems = [] := by
  obtain ⟨w, hw, -, hlist⟩ := h
  rw [Json.childItems, hw]
  cases w with
  | list items => exact absurd rfl (hlist items)
  | _ => rfl

theorem not_applies_of_isNode (hv : v.IsNode) (fault : NodeFault) : ¬ fault.Applies v := by
  obtain ⟨⟨type, htype⟩, hchildren⟩ := hv
  intro h
  cases fault with
  | notObject =>
    cases v with
    | object fields => cases h
    | _ => cases htype
  | unknownType name =>
    obtain ⟨hname, hnone⟩ := h
    rw [htype] at hname
    cases hname
    exact hnone type rfl
  | missingType => exact h.2 _ htype
  | childrenNotList =>
    obtain ⟨w, hw, hnull, hlist⟩ := h
    rcases hchildren with hnone | hchildren | ⟨items, hitems⟩
    · simp [hnone] at hw
    · exact hnull (by simpa [hchildren] using hw.symm)
    · exact hlist items (by simpa [hitems] using hw.symm)

theorem isNode_of_not_applies (h : ∀ fault, ¬ Applies v fault) : v.IsNode := by
  have hobject : v.isObject = true := by simpa [Applies] using h notObject
  have htext : ∃ name, v.field? "node_type" = some (.text name) := by
    simpa [Applies, hobject] using h missingType
  obtain ⟨name, hname⟩ := htext
  have hknown : ∃ type : NodeType, name = type.name := by
    simpa [Applies, hname] using h (unknownType name)
  obtain ⟨type, rfl⟩ := hknown
  refine ⟨⟨type, hname⟩, ?_⟩
  cases hw : v.field? "children" with
  | none => exact .inl rfl
  | some w =>
    have hlist : w ≠ .null → ∃ items, w = .list items := by
      simpa [Applies, hw] using h childrenNotList
    by_cases hnull : w = .null
    · exact .inr (.inl (congrArg some hnull))
    · exact .inr (.inr ((hlist hnull).imp fun _ => congrArg some))

theorem isNode_iff : v.IsNode ↔ ∀ fault, ¬ Applies v fault :=
  ⟨not_applies_of_isNode, isNode_of_not_applies⟩

end NodeFault

namespace RecordFault

variable {v : Json} {path : Tree.Path} {items : List Json} {f : RecordFault}

/-- A node is examined by itself and then its children, if these are a list. -/
theorem ofNode_eq (path : Tree.Path) (v : Json) :
    ofNode path v = (NodeFault.ofValue v).map (node path) ++ ofItems path 0 v.childItems := by
  cases v with
  | object fields =>
    have hchildren : ofFields path fields =
        (NodeFault.ofChildren? fields).toList.map (node path) ++
          ofItems path 0 (Json.object fields).childItems := by
      have hitems : (Json.object fields).childItems =
          ((Entries.find? "children" fields).bind Json.items?).getD [] := rfl
      rw [ofFields_eq, NodeFault.ofChildren?, hitems]
      cases Entries.find? "children" fields with
      | none => simp [ofItems]
      | some w => cases w <;> simp [ofChildren, ofItems, Json.items?]
    rw [ofNode, hchildren, NodeFault.ofValue, List.map_append, List.append_assoc]
    cases NodeFault.ofType? fields <;> rfl
  | _ => simp [ofNode, NodeFault.ofValue, Json.childItems, Json.field?, Json.fields?, ofItems]

theorem mem_ofItems_iff {start : Nat} : f ∈ ofItems path start items ↔
    ∃ i c, items[i]? = some c ∧ f ∈ ofNode (path ++ [start + i]) c := by
  induction items generalizing start with
  | nil => simp [ofItems]
  | cons c rest ih =>
    rw [ofItems, List.mem_append, ih]
    constructor
    · rintro (h | ⟨i, c', hc', h⟩)
      · exact ⟨0, c, rfl, h⟩
      · refine ⟨i + 1, c', hc', ?_⟩
        rwa [Nat.add_comm i, ← Nat.add_assoc]
    · rintro ⟨i, c', hc', h⟩
      cases i with
      | zero =>
        obtain rfl : c = c' := by simpa using hc'
        exact .inl h
      | succ i =>
        refine .inr ⟨i, c', by simpa using hc', ?_⟩
        rwa [Nat.add_comm i, ← Nat.add_assoc] at h

/-- The faults of a node are the rules that are broken at the paths below it. -/
theorem mem_ofNode_iff : f ∈ ofNode path v ↔
    ∃ below u fault, v.at? below = some u ∧ NodeFault.Applies u fault ∧ f = node (path ++ below) fault := by
  -- By induction on the children: a path is empty, or it begins with the index of one of them.
  induction v using Json.childItems_induction generalizing path with
  | step v ih =>
    rw [ofNode_eq, List.mem_append, List.mem_map, mem_ofItems_iff]
    constructor
    · rintro (⟨fault, hfault, rfl⟩ | ⟨i, c, hc, h⟩)
      · exact ⟨[], v, fault, rfl, NodeFault.mem_ofValue_iff.mp hfault, by rw [List.append_nil]⟩
      · obtain ⟨below, u, fault, hu, hfault, rfl⟩ := (ih c (List.mem_of_getElem? hc)).mp h
        refine ⟨i :: below, u, fault, ?_, hfault, by simp⟩
        rw [Json.at?, hc, Option.bind_some, hu]
    · rintro ⟨below, u, fault, hu, hfault, rfl⟩
      cases below with
      | nil =>
        obtain rfl : v = u := Option.some.inj hu
        exact .inl ⟨fault, NodeFault.mem_ofValue_iff.mpr hfault, by rw [List.append_nil]⟩
      | cons i below =>
        obtain ⟨c, hc, hu⟩ := Option.bind_eq_some_iff.mp hu
        refine .inr ⟨i, c, hc, (ih c (List.mem_of_getElem? hc)).mpr ?_⟩
        exact ⟨below, u, fault, hu, hfault, by simp⟩

/-- The examination goes on below a node of no type. -/
example : (ofNode [] (.object [("children", .list [.object [("node_type", .text "lambda"),
    ("children", .integer 1)]])])).map message =
    ["ast: missing node_type", "ast.children[0]: unknown node_type 'lambda'",
      "ast.children[0]: children must be an array"] := by decide +kernel

/-- The value has this fault as a record. -/
def Applies (v : Json) : RecordFault → Prop
  | notObject => v.isObject = false
  | missing name => v.isObject = true ∧ name ∈ requiredFields ∧ v.field? name = none
  | unsupportedVersion version =>
    v.field? "schema_version" = some (.text version) ∧ version ≠ GeneRecord.currentVersion
  | versionNotText => ∃ w, v.field? "schema_version" = some w ∧ ∀ version, w ≠ .text version
  | invalidGeneId w => v.field? "gene_id" = some w ∧ ∀ id, w = .text id → Gene.isValidId id = false
  | lineageNotObject => ∃ w, v.field? "lineage" = some w ∧ w.isObject = false
  | node path fault =>
    ∃ ast u, v.field? "ast" = some ast ∧ ast.at? path = some u ∧ NodeFault.Applies u fault

theorem mem_ofVersion_iff : f ∈ ofVersion v ↔
    (∃ version, v = .text version ∧ version ≠ GeneRecord.currentVersion ∧
      f = unsupportedVersion version) ∨
    (∀ version, v ≠ .text version) ∧ f = versionNotText := by
  cases v with
  | text version =>
    unfold ofVersion
    split <;> simp_all
  | _ => simp [ofVersion]

theorem mem_ofGeneId_iff : f ∈ ofGeneId v ↔
    (∀ id, v = .text id → Gene.isValidId id = false) ∧ f = invalidGeneId v := by
  cases v with
  | text id =>
    unfold ofGeneId
    split <;> simp_all [Json.text?]
  | _ => simp [ofGeneId, Json.text?]

theorem mem_ofLineage_iff : f ∈ ofLineage v ↔ v.isObject = false ∧ f = lineageNotObject := by
  unfold ofLineage
  split <;> simp_all

/-- The parts of an examination, each but the first of one field. -/
theorem all_eq_parts (fields : List (String × Json)) : all (.object fields) =
    [(requiredFields.filter fun name => (Entries.find? name fields).isNone).map missing,
      ((Entries.find? "schema_version" fields).map ofVersion).getD [],
      ((Entries.find? "gene_id" fields).map ofGeneId).getD [],
      ((Entries.find? "lineage" fields).map ofLineage).getD [],
      ((Entries.find? "ast" fields).map (ofNode [])).getD []].flatten := by
  simp [all]

theorem mem_part_iff {o : Option Json} {check : Json → List RecordFault} :
    f ∈ (o.map check).getD [] ↔ ∃ w, o = some w ∧ f ∈ check w := by
  cases o <;> simp

theorem mem_all_iff : f ∈ all v ↔ f.Applies v := by
  cases v with
  | object fields =>
    have hfield : ∀ name, (Json.object fields).field? name = Entries.find? name fields := fun _ => rfl
    simp only [all_eq_parts, List.mem_flatten, List.mem_cons, List.not_mem_nil, exists_eq_or_imp, or_false,
      exists_eq_left, List.mem_map, List.mem_filter, mem_part_iff, mem_ofVersion_iff,
      mem_ofGeneId_iff, mem_ofLineage_iff, mem_ofNode_iff]
    cases f <;> simp [Applies, hfield, Json.isObject]
  | _ => cases f <;> simp [all, Applies, Json.isObject, Json.field?, Json.fields?]

end RecordFault

/-- What a gene is exchanged as: the current version, an identity of sixteen hexadecimal digits, an
ancestry, and a tree all whose values are nodes. -/
structure Json.IsRecord (v : Json) : Prop where
  version : v.field? "schema_version" = some (.text GeneRecord.currentVersion)
  identity : ∃ id, v.field? "gene_id" = some (.text id) ∧ id.toList.length = 16 ∧
    ∀ c ∈ id.toList, ('0' ≤ c ∧ c ≤ '9') ∨ ('a' ≤ c ∧ c ≤ 'f')
  lineage : ∃ fields, v.field? "lineage" = some (.object fields)
  nodes : ∃ ast, v.field? "ast" = some ast ∧ ∀ path u, ast.at? path = some u → u.IsNode

namespace RecordFault

variable {v : Json}

theorem not_applies_of_isRecord (hv : v.IsRecord) (f : RecordFault) : ¬ f.Applies v := by
  obtain ⟨hversion, ⟨id, hid, hvalid⟩, ⟨fields, hlineage⟩, ast, hast, hnodes⟩ := hv
  intro h
  cases f with
  | notObject =>
    cases v with
    | object fields => cases h
    | _ => cases hversion
  | missing name =>
    obtain ⟨-, hname, hnone⟩ := h
    simp only [requiredFields, List.mem_cons, List.not_mem_nil, or_false] at hname
    rcases hname with rfl | rfl | rfl | rfl
    · cases hversion.symm.trans hnone
    · cases hid.symm.trans hnone
    · cases hast.symm.trans hnone
    · cases hlineage.symm.trans hnone
  | unsupportedVersion version =>
    obtain ⟨hother, hne⟩ := h
    rw [hversion] at hother
    cases hother
    exact hne rfl
  | versionNotText =>
    obtain ⟨w, hw, hne⟩ := h
    exact hne _ (by simpa [hversion] using hw.symm)
  | invalidGeneId w =>
    obtain ⟨hw, hinvalid⟩ := h
    have hfalse := hinvalid id (by simpa [hid] using hw.symm)
    rw [Gene.isValidId_iff.mpr hvalid] at hfalse
    cases hfalse
  | lineageNotObject =>
    obtain ⟨w, hw, hobject⟩ := h
    rw [hlineage] at hw
    cases hw
    cases hobject
  | node path fault =>
    obtain ⟨ast', u, hast', hu, hfault⟩ := h
    rw [hast] at hast'
    cases hast'
    exact NodeFault.isNode_iff.mp (hnodes path u hu) fault hfault

theorem isRecord_of_not_applies (h : ∀ f, ¬ Applies v f) : v.IsRecord := by
  have hobject : v.isObject = true := by simpa [Applies] using h notObject
  have hfields : ∀ name ∈ requiredFields, ∃ w, v.field? name = some w := by
    intro name hname
    simpa [Applies, hobject, hname, Option.ne_none_iff_exists'] using h (missing name)
  obtain ⟨version, hversion⟩ := hfields "schema_version" (by decide)
  obtain ⟨id, hid⟩ := hfields "gene_id" (by decide)
  obtain ⟨lineage, hlineage⟩ := hfields "lineage" (by decide)
  obtain ⟨ast, hast⟩ := hfields "ast" (by decide)
  have hversionText : ∃ text, version = .text text := by
    simpa [Applies, hversion] using h versionNotText
  obtain ⟨version, rfl⟩ := hversionText
  have hcurrent : version = GeneRecord.currentVersion := by
    simpa [Applies, hversion] using h (unsupportedVersion version)
  have hidText : ∃ text, id = .text text ∧ Gene.isValidId text = true := by
    simpa [Applies, hid] using h (invalidGeneId id)
  obtain ⟨id, rfl, hvalid⟩ := hidText
  have hancestry : lineage.isObject = true := by
    simpa [Applies, hlineage] using h lineageNotObject
  refine ⟨hcurrent ▸ hversion, ⟨id, hid, Gene.isValidId_iff.mp hvalid⟩, ?_, ast, hast, ?_⟩
  · cases lineage with
    | object fields => exact ⟨fields, hlineage⟩
    | _ => cases hancestry
  · intro path u hu
    rw [NodeFault.isNode_iff]
    intro fault hfault
    exact h (node path fault) ⟨ast, u, hast, hu, hfault⟩

theorem isRecord_iff : v.IsRecord ↔ ∀ f, ¬ Applies v f :=
  ⟨not_applies_of_isRecord, isRecord_of_not_applies⟩

end RecordFault
end SignalEvolution
