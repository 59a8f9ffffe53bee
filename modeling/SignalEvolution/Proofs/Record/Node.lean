import SignalEvolution.Proofs.Formula.Rendering
import SignalEvolution.Proofs.Json.Reading
import SignalEvolution.Proofs.Record.Naming
import SignalEvolution.Proofs.Tree.Arity

/-! # Exchanged trees read back

The record of a full tree becomes that tree again, and a record whose numbers are finite
is read back from its JSON form.
-/
namespace SignalEvolution

variable {t : Tree} {ts : List Tree} {k : Kind}

namespace NodeRecord

variable {r : NodeRecord} {rs : List NodeRecord}

mutual
theorem induction {motive : NodeRecord → Prop}
    (node : ∀ r : NodeRecord, (∀ c ∈ r.children, motive c) → motive r) : ∀ r, motive r
  | ⟨type, operator, name, params, value, children⟩ =>
    node ⟨type, operator, name, params, value, children⟩ (inductionAll node children)
theorem inductionAll {motive : NodeRecord → Prop}
    (node : ∀ r : NodeRecord, (∀ c ∈ r.children, motive c) → motive r) :
    ∀ rs : List NodeRecord, ∀ c ∈ rs, motive c
  | [], _, hc => absurd hc List.not_mem_nil
  | r :: rs, c, hc => by
    rcases List.mem_cons.mp hc with heq | hc
    · rw [heq]
      exact induction node r
    · exact inductionAll node rs c hc
end

mutual
/-- The nodes of a record, each before those below it. -/
def nodes : NodeRecord → List NodeRecord
  | ⟨nodeType, operator, name, params, value, children⟩ =>
    ⟨nodeType, operator, name, params, value, children⟩ :: nodesAll children
def nodesAll : List NodeRecord → List NodeRecord
  | [] => []
  | r :: rs => r.nodes ++ nodesAll rs
end

theorem nodes_eq (r : NodeRecord) : r.nodes = r :: nodesAll r.children := by
  cases r
  rw [nodes]

theorem forall_mem_nodesAll {P : NodeRecord → Prop} :
    (∀ n ∈ nodesAll rs, P n) ↔ ∀ c ∈ rs, ∀ n ∈ c.nodes, P n := by
  induction rs with
  | nil => simp [nodesAll]
  | cons r rs ih => simp only [nodesAll, List.forall_mem_append, List.forall_mem_cons, ih]

theorem forall_mem_nodes {P : NodeRecord → Prop} :
    (∀ n ∈ r.nodes, P n) ↔ P r ∧ ∀ c ∈ r.children, ∀ n ∈ c.nodes, P n := by
  rw [nodes_eq, List.forall_mem_cons, forall_mem_nodesAll]

/-- A record becomes a tree where it names a kind, its children become trees and their number
suits the kind. -/
theorem toTree_eq_ok_iff : r.toTree = .ok t ↔ ∃ k ts, r.Names k ∧ toTrees r.children = .ok ts ∧
    ts.length = k.arity ∧ t = .node k ts := by
  simp only [names_iff]
  obtain ⟨nodeType, operator, name, params, value, children⟩ := r
  rw [toTree]
  constructor
  · intro h
    obtain ⟨type, htype, h⟩ := bind_eq_ok h
    obtain ⟨l, hkind, h⟩ := bind_eq_ok h
    obtain ⟨ts, hts, h⟩ := bind_eq_ok h
    obtain ⟨k, hk, hlength, rfl⟩ := Tree.make_eq_ok_iff.mp h
    exact ⟨k, ts, ⟨type, htype, l, hkind, hk⟩, hts, hlength, rfl⟩
  · rintro ⟨k, ts, ⟨type, htype, l, hkind, hk⟩, hts, hlength, rfl⟩
    have hmake := Tree.make_eq_ok_iff.mpr ⟨k, hk, hlength, rfl⟩
    exact bind_of_ok htype (bind_of_ok hkind (bind_of_ok hts hmake))

theorem toTrees_eq_ok_iff : toTrees rs = .ok ts ↔ List.Forall₂ (fun r t => r.toTree = .ok t) rs ts := by
  induction rs generalizing ts with
  | nil =>
    rw [toTrees, List.forall₂_nil_left_iff]
    exact ⟨fun h => (Except.ok.inj h).symm, fun h => congrArg _ h.symm⟩
  | cons r rs ih =>
    rw [toTrees]
    constructor
    · intro h
      obtain ⟨t, ht, h⟩ := bind_eq_ok h
      obtain ⟨us, hus, h⟩ := bind_eq_ok h
      obtain rfl := Except.ok.inj h
      exact .cons ht (ih.mp hus)
    · rintro (_ | ⟨ht, hts⟩)
      exact bind_of_ok ht (bind_of_ok (ih.mpr hts) rfl)

theorem exists_tree (h : toTrees rs = .ok ts) (hr : r ∈ rs) : ∃ t, r.toTree = .ok t := by
  induction toTrees_eq_ok_iff.mp h with
  | nil => cases hr
  | @cons q t rs ts ht hts ih =>
    rcases List.mem_cons.mp hr with rfl | hr
    · exact ⟨t, ht⟩
    · exact ih (toTrees_eq_ok_iff.mpr hts) hr

theorem exists_trees (h : ∀ r ∈ rs, ∃ t, r.toTree = .ok t) : ∃ ts, toTrees rs = .ok ts := by
  induction rs with
  | nil => exact ⟨[], rfl⟩
  | cons r rs ih =>
    obtain ⟨⟨t, ht⟩, hrs⟩ := List.forall_mem_cons.mp h
    obtain ⟨ts, hts⟩ := ih hrs
    exact ⟨t :: ts, bind_of_ok ht (bind_of_ok hts rfl)⟩

theorem exists_record (h : toTrees rs = .ok ts) (ht : t ∈ ts) : ∃ r ∈ rs, r.toTree = .ok t := by
  induction toTrees_eq_ok_iff.mp h with
  | nil => cases ht
  | @cons r u rs ts hu hts ih =>
    rcases List.mem_cons.mp ht with rfl | ht
    · exact ⟨r, List.mem_cons_self, hu⟩
    · obtain ⟨q, hq, hread⟩ := ih (toTrees_eq_ok_iff.mpr hts) ht
      exact ⟨q, List.mem_cons_of_mem _ hq, hread⟩

/-- A node names a kind and has as many children as that kind takes. -/
def Coherent (r : NodeRecord) : Prop := ∃ k, r.Names k ∧ r.children.length = k.arity

theorem exists_toTree_iff : (∃ t, r.toTree = .ok t) ↔ ∀ n ∈ r.nodes, n.Coherent := by
  induction r using induction with
  | node r ih =>
    rw [forall_mem_nodes]
    constructor
    · rintro ⟨t, h⟩
      obtain ⟨k, ts, hk, hts, hlength, -⟩ := toTree_eq_ok_iff.mp h
      have hcount := (toTrees_eq_ok_iff.mp hts).length_eq
      exact ⟨⟨k, hk, hcount.trans hlength⟩, fun c hc => (ih c hc).mp (exists_tree hts hc)⟩
    · rintro ⟨⟨k, hk, hlength⟩, hbelow⟩
      obtain ⟨ts, hts⟩ := exists_trees fun c hc => (ih c hc).mpr (hbelow c hc)
      have hcount := (toTrees_eq_ok_iff.mp hts).length_eq
      exact ⟨_, toTree_eq_ok_iff.mpr ⟨k, ts, hk, hts, hcount.symm.trans hlength, rfl⟩⟩

theorem Names.named (h : r.Names k) : k.Named := by
  obtain ⟨type, -, l, -, hregistered⟩ := names_iff.mp h
  exact Kind.named_of_registered hregistered

theorem complete_of_toTree (h : r.toTree = .ok t) : t.Complete := by
  induction r using induction generalizing t with
  | node r ih =>
    obtain ⟨k, ts, hk, hts, hlength, rfl⟩ := toTree_eq_ok_iff.mp h
    refine Tree.complete_iff.mpr ⟨hlength, hk.named, fun c hc => ?_⟩
    obtain ⟨d, hd, hread⟩ := exists_record hts hc
    exact ih d hd hread

theorem ofTrees_eq (ts : List Tree) : ofTrees ts = ts.map ofTree := by
  induction ts with
  | nil => rfl
  | cons t ts ih => rw [ofTrees, ih, List.map_cons]

@[simp] theorem children_ofKind (rs : List NodeRecord) (k : Kind) : (ofKind rs k).children = rs := by
  cases k <;> rfl

/-- A record names the kind that it was made from. -/
theorem names_ofKind (rs : List NodeRecord) (hk : k.Named) : (ofKind rs k).Names k := by
  cases k with
  | operator op => exact .operator rfl rfl (Operator.ofSymbol?_eq_some_iff.mp op.ofSymbol?_symbol)
  | comparator cmp => exact .comparator rfl rfl (Comparator.ofSymbol?_eq_some_iff.mp cmp.ofSymbol?_symbol)
  | indicator name params =>
    obtain ⟨i, rfl⟩ := hk
    exact .indicator rfl rfl rfl
  | constant x => exact .constant rfl rfl
  | series s => exact .series rfl rfl (Series.ofName_eq_ok_iff.mp s.ofName_name)

/-- The record of a complete tree becomes that tree. -/
theorem toTree_ofTree (h : t.Complete) : (ofTree t).toTree = .ok t := by
  induction t using Tree.induction with
  | node k cs ih =>
    obtain ⟨hlength, hk, hcs⟩ := Tree.complete_iff.mp h
    rw [ofTree, ofTrees_eq]
    refine toTree_eq_ok_iff.mpr ⟨k, cs, names_ofKind _ hk, ?_, hlength, rfl⟩
    rw [children_ofKind, toTrees_eq_ok_iff, List.forall₂_map_left_iff, List.forall₂_same]
    exact fun c hc => ih c hc (hcs c hc)

mutual
/-- All numbers of a record and of those below it are finite. -/
def Finite : NodeRecord → Prop
  | ⟨_, _, _, params, value, children⟩ =>
    (∀ p ∈ params, ∀ e ∈ p.entries, e.2.isFinite = true) ∧ (∀ x ∈ value, x.isFinite = true) ∧
      AllFinite children
def AllFinite : List NodeRecord → Prop
  | [] => True
  | r :: rs => r.Finite ∧ AllFinite rs
end

theorem allFinite_iff : AllFinite rs ↔ ∀ r ∈ rs, r.Finite := by
  induction rs with
  | nil => simp [AllFinite]
  | cons r rs ih => simp [AllFinite, ih]

theorem finite_iff : r.Finite ↔ (∀ p ∈ r.params, ∀ e ∈ p.entries, e.2.isFinite = true) ∧
    (∀ x ∈ r.value, x.isFinite = true) ∧ ∀ c ∈ r.children, c.Finite := by
  obtain ⟨nodeType, operator, name, params, value, children⟩ := r
  rw [Finite, allFinite_iff]

theorem finite_ofTree (h : t.Every Formula.FiniteKind) : (ofTree t).Finite := by
  induction t using Tree.induction with
  | node k cs ih =>
    obtain ⟨hk, hcs⟩ := Tree.every_iff.mp h
    have hchildren : ∀ r ∈ ofTrees cs, r.Finite := by
      rw [ofTrees_eq, List.forall_mem_map]
      exact fun c hc => ih c hc (hcs c hc)
    rw [ofTree, finite_iff]
    cases k with
    | indicator i params =>
      refine ⟨?_, by simp [ofKind], hchildren⟩
      intro p hp
      obtain rfl := Option.some.inj hp
      exact hk
    | constant x =>
      refine ⟨by simp [ofKind], ?_, hchildren⟩
      intro y hy
      obtain rfl := Option.some.inj hy
      exact hk
    | operator op => exact ⟨by simp [ofKind], by simp [ofKind], hchildren⟩
    | comparator cmp => exact ⟨by simp [ofKind], by simp [ofKind], hchildren⟩
    | series s => exact ⟨by simp [ofKind], by simp [ofKind], hchildren⟩

theorem finiteKind_of_names (hparams : ∀ p ∈ r.params, ∀ e ∈ p.entries, e.2.isFinite = true)
    (hvalue : ∀ x ∈ r.value, x.isFinite = true) (h : r.Names k) : Formula.FiniteKind k := by
  cases h with
  | operator | comparator | series => trivial
  | indicator =>
    cases hfound : r.params with
    | none => exact List.forall_mem_nil _
    | some p => exact hparams p hfound
  | constant _ hfound => exact hvalue _ hfound

theorem every_finiteKind_of_toTree (hr : r.Finite) (h : r.toTree = .ok t) :
    t.Every Formula.FiniteKind := by
  induction r using induction generalizing t with
  | node r ih =>
    obtain ⟨hparams, hvalue, hchildren⟩ := finite_iff.mp hr
    obtain ⟨k, ts, hnames, hts, -, rfl⟩ := toTree_eq_ok_iff.mp h
    refine Tree.every_iff.mpr ⟨finiteKind_of_names hparams hvalue hnames, ?_⟩
    intro c hc
    obtain ⟨d, hd, hread⟩ := exists_record hts hc
    exact ih d hd (hchildren d hd) hread

/-- The fields of the JSON form; those without a value are left out. -/
def jsonFields (r : NodeRecord) : List (String × Json) :=
  [("node_type", .text r.nodeType)] ++ Json.optionalField "operator" .text r.operator ++
    Json.optionalField "name" .text r.name ++ Json.optionalField "params" (.ofTable Json.number) r.params ++
    Json.optionalField "value" Json.number r.value ++
    Json.optionalField "children" (fun rs => .list (rs.map toJson))
      (if r.children.isEmpty then none else some r.children)

theorem toJsonAll_eq (rs : List NodeRecord) : toJsonAll rs = rs.map toJson := by
  induction rs with
  | nil => rfl
  | cons r rs ih => rw [toJsonAll, ih, List.map_cons]

theorem toJson_eq (r : NodeRecord) : r.toJson = .object r.jsonFields := by
  obtain ⟨nodeType, operator, name, params, value, children⟩ := r
  rw [toJson, jsonFields, toJsonAll_eq]
  congr 2
  cases children <;> rfl

theorem nodup_jsonFields (r : NodeRecord) : (r.jsonFields.map Prod.fst).Nodup := by
  have hnames : fieldNames.Nodup := by decide
  refine List.Sublist.nodup ?_ hnames
  simp only [jsonFields, List.map_append]
  have hfirst : (["node_type"].Sublist ["node_type"]) := List.Sublist.refl _
  have hsymbols := (hfirst.append (Json.keys_optionalField "operator" Json.text r.operator)).append
    (Json.keys_optionalField "name" Json.text r.name)
  have hnumbers := (hsymbols.append (Json.keys_optionalField "params" (.ofTable Json.number) r.params)).append
    (Json.keys_optionalField "value" Json.number r.value)
  exact hnumbers.append (Json.keys_optionalField "children" _ _)

theorem find?_jsonFields (r : NodeRecord) :
    Entries.find? "node_type" r.jsonFields = some (.text r.nodeType) ∧
    Entries.find? "operator" r.jsonFields = r.operator.map .text ∧
    Entries.find? "name" r.jsonFields = r.name.map .text ∧
    Entries.find? "params" r.jsonFields = r.params.map (.ofTable Json.number) ∧
    Entries.find? "value" r.jsonFields = r.value.map Json.number ∧
    Entries.find? "children" r.jsonFields =
      if r.children.isEmpty then none else some (.list (r.children.map toJson)) := by
  refine ⟨?_, ?_, ?_, ?_, ?_, ?_⟩
  all_goals simp [jsonFields, Entries.find?]
  -- Only the children are left out by their number.
  split <;> rfl

/-- The JSON form of a child is less deep. -/
theorem depth_child {c : NodeRecord} (hc : c ∈ r.children) :
    (Document.ofJson c.toJson.arranged).depth < (Document.ofJson r.toJson.arranged).depth := by
  have hne : r.children.isEmpty = false := by
    rw [← Bool.not_eq_true, List.isEmpty_iff]
    exact List.ne_nil_of_mem hc
  have hfind : Entries.find? "children" (Json.arrangedTable r.jsonFields).entries =
      some (.list (r.children.map toJson |>.map Json.arranged)) := by
    rw [Json.find?_arrangedTable r.nodup_jsonFields, r.find?_jsonFields.2.2.2.2.2, hne,
      if_neg Bool.false_ne_true, Option.map_some, Json.arranged, Json.arrangedItems_eq]
  have hmem := List.mem_map_of_mem (f := fun e => (some e.1, Document.ofJson e.2)) (Entries.mem_of_find? hfind)
  rw [toJson_eq r, Json.arranged_object, Document.ofJson, Document.fieldsOfJson_eq]
  refine Nat.lt_trans ?_ (Document.depth_lt_object hmem)
  rw [Document.ofJson, Document.itemsOfJson_eq]
  apply Document.depth_lt_list
  exact List.mem_map_of_mem (List.mem_map_of_mem (List.mem_map_of_mem hc))

/-- A record whose numbers are finite is read back, given fuel for its depth. -/
theorem readerWith_toJson (hr : r.Finite) : ∀ fuel, (Document.ofJson r.toJson.arranged).depth ≤ fuel →
    (readerWith fuel).ofJson? r.toJson.arranged = some r := by
  induction r using induction with
  | node r ih =>
    obtain ⟨hparams, hvalue, hchildren⟩ := finite_iff.mp hr
    obtain ⟨htype, hoperator, hname, hps, hv, hcs⟩ := r.find?_jsonFields
    rintro (_ | fuel) hfuel
    · rw [toJson_eq, Json.arranged_object, Document.ofJson, Document.depth] at hfuel
      omega
    · obtain ⟨f, hf, hread⟩ := Reader.exists_holds r.jsonFields r.nodup_jsonFields fieldNames
      -- The children are less deep than the record, so the fuel left is enough for them.
      have hbelow : (Reader.list (readerWith fuel)).ofJson? (Json.list (r.children.map toJson)).arranged =
          some r.children := by
        refine Reader.list_ofJson? r.children fun c hc => ih c hc (hchildren c hc) fuel ?_
        exact Nat.le_of_lt_succ (Nat.lt_of_lt_of_le (depth_child hc) hfuel)
      rw [toJson_eq, readerWith, hread]
      refine bind_of_some (hf.required (by decide) htype rfl) ?_
      refine bind_of_some (hf.optional (by decide) hoperator fun _ _ => rfl) ?_
      refine bind_of_some (hf.optional (by decide) hname fun _ _ => rfl) ?_
      refine bind_of_some (hf.optional (by decide) hps fun p hp => ?_) ?_
      · exact Reader.optional_table p fun e he => Reader.number_ofJson? (hparams p hp e he)
      refine bind_of_some (hf.optional (by decide) hv fun x hx => ?_) ?_
      · exact Reader.optional_number (hvalue x hx)
      have hlist : f.withDefault "children" [] (Reader.list (readerWith fuel)) = some r.children := by
        split at hcs
        · next hempty =>
          rw [List.isEmpty_iff.mp hempty]
          exact hf.absent (by decide) hcs _ _
        · exact hf.withDefault (by decide) hcs hbelow _
      refine bind_of_some hlist ?_
      cases r
      rfl

theorem reader_toJson (hr : r.Finite) : reader.ofJson? r.toJson.arranged = some r :=
  readerWith_toJson hr _ (Nat.le_refl _)

end NodeRecord
end SignalEvolution
